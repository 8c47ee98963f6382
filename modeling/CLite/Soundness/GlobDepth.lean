import CLite.Proofs.GlobSelect

/-! # Deep patterns

The pattern is cut into at most 64 components, and what remains of it is forgotten. The expansion takes the last of
these components for the last one of the pattern, so that a deeper pattern returns the paths that match its front.
That such a path has no name for the other components is seen from its slashes: the components determine their
number, and each further name brings one more.
-/

namespace CLite

variable {fs : FileSystem} {opts : GlobOptions} {pattern : CString} {flags : BitVec 32} {pglob : GlobT}

/-- The components behind the 64th, which the pattern is cut to. -/
def droppedComponents (noescape : Bool) (pattern : CString) : List CString :=
  (components noescape pattern).drop GLOB_MAX_COMPONENTS

/-- Whatever the allocator does, every path that a call returns has exactly one name for each nonempty component. -/
def NamesEvery (fs : FileSystem) (pattern : CString) (flags : BitVec 32) (pglob : GlobT) : Prop :=
  ∀ succeeds ret result, glob fs succeeds pattern flags pglob = some (ret, result) →
    ∀ path ∈ result.paths, OneNameEach (globOptions pattern flags) pattern path

/-! ## Names of a reached path -/

theorem globUnescape_ne_nil {comp : CString} (noescape : Bool) (nonempty : comp ≠ []) :
    globUnescape noescape comp ≠ [] := by
  fun_cases globUnescape noescape comp with
  | case1 => exact (nonempty rfl).elim
  | case2 | case3 | case4 => simp

theorem NameFor.ne_nil {comp name : CString} (named : NameFor opts comp name) (nonempty : comp ≠ []) : name ≠ [] := by
  rw [NameFor] at named
  split_ifs at named with wild
  · exact named.1
  · rw [named]
    exact globUnescape_ne_nil _ nonempty

theorem literalPath_eq_some {last : Bool} {lit dir path : CString}
    (contributed : literalPath fs opts last lit dir = some path) :
    path = pathJoin dir lit ∨ last = true ∧ opts.markdirs = true ∧ path = pathJoin dir lit ++ [chr '/'] := by
  rw [literalPath, globJoin_eq] at contributed
  by_cases fits : (pathJoin dir lit).length < bufferSize
  · rw [if_pos fits] at contributed
    dsimp only at contributed
    cases last with
    | false =>
      rw [if_pos rfl] at contributed
      split_ifs at contributed
      exact .inl (Option.some.inj contributed).symm
    | true =>
      rw [if_neg (by simp)] at contributed
      cases found : fs.lstat (pathJoin dir lit) with
      | none => simp [found] at contributed
      | some kind =>
        simp only [found] at contributed
        split_ifs at contributed with skipped marked long
        · exact .inr ⟨rfl, marked.1, (Option.some.inj contributed).symm⟩
        · exact .inl (Option.some.inj contributed).symm
  · rw [if_neg fits] at contributed
    cases contributed

/-- A path that a component contributes ends in a name for it, and in a slash if it is the last and marked. -/
theorem name_of_mem_levelPaths (nameless : ∀ dir, [] ∉ entries fs dir) {last : Bool} {comp dir path : CString}
    (member : path ∈ levelPaths fs opts last comp dir) :
    ∃ name, NameFor opts comp name ∧ (path = pathJoin dir name ∨
      last = true ∧ opts.markdirs = true ∧ path = pathJoin dir name ++ [chr '/']) := by
  rw [levelPaths] at member
  split_ifs at member with wild
  · obtain ⟨name, listed, contributed⟩ := List.mem_filterMap.mp member
    rw [wildcardPath_eq_ite] at contributed
    split_ifs at contributed with passes marked
    all_goals
      have named : NameFor opts comp name := by
        rw [NameFor, if_pos wild]
        exact ⟨fun empty => nameless dir (empty ▸ listed), entries_plain listed, passes.1.2.2⟩
    · exact ⟨name, named, .inr ⟨marked.1.1, marked.1.2.1, (Option.some.inj contributed).symm⟩⟩
    · exact ⟨name, named, .inl (Option.some.inj contributed).symm⟩
  · refine ⟨globUnescape opts.noescape comp, by rw [NameFor, if_neg wild], ?_⟩
    exact literalPath_eq_some (Option.mem_toList.mp member)

/-- A path that the expansion reaches consists of one name for each of the nonempty components. -/
theorem names_of_reached (nameless : ∀ dir, [] ∉ entries fs dir) {comps : List CString} {dir path : CString}
    (reached : Reached fs opts false comps dir path) :
    ∃ names, List.Forall₂ (NameFor opts) (comps.filter (· ≠ [])) names ∧
      (path = joinNames dir names ∨ opts.markdirs = true ∧ path = joinNames dir names ++ [chr '/']) := by
  induction reached with
  | done path => exact ⟨[], .nil, .inl rfl⟩
  | skip tail ih => exact ih
  | @step comp dir next path rest nonempty chosen tail ih =>
    obtain ⟨names, each, shape⟩ := ih
    obtain ⟨name, named, joined | ⟨last, mark, joined⟩⟩ := name_of_mem_levelPaths nameless chosen
    · subst joined
      refine ⟨name :: names, ?_, shape⟩
      rw [List.filter_cons_of_pos (by simp [nonempty])]
      exact .cons named each
    · -- only the last component is marked, so that nothing follows
      obtain rfl : rest = [] := by simpa using last
      cases tail
      refine ⟨[name], ?_, .inr ⟨mark, joined⟩⟩
      rw [List.filter_cons_of_pos (by simp [nonempty])]
      exact .cons named .nil

/-! ## Slashes -/

/-- The number of slashes in a path. -/
def slashes (path : CString) : ℕ := path.count (chr '/')

/-- The paths have the same number of slashes, and a name is joined to both in the same way. -/
structure Alike (first second : CString) : Prop where
  slashes : slashes first = slashes second
  empty : first = [] ↔ second = []
  root : first = [chr '/'] ↔ second = [chr '/']

theorem Alike.refl (path : CString) : Alike path path := ⟨rfl, Iff.rfl, Iff.rfl⟩

theorem slashes_pathLead (dir : CString) :
    slashes (pathLead dir) = slashes dir + if dir = [] ∨ dir = [chr '/'] then 0 else 1 := by
  rw [pathLead]
  split_ifs with empty root either either <;> simp_all [slashes, List.count_append]

theorem slashes_pathJoin (dir name : CString) :
    slashes (pathJoin dir name) = slashes dir + (if dir = [] ∨ dir = [chr '/'] then 0 else 1) + slashes name := by
  rw [pathJoin_eq, ← slashes_pathLead]
  exact List.count_append ..

theorem pathJoin_eq_root_iff {dir name : CString} (nonempty : name ≠ []) :
    pathJoin dir name = [chr '/'] ↔ dir = [] ∧ name = [chr '/'] := by
  have positive := List.length_pos_of_ne_nil nonempty
  rw [pathJoin]
  split_ifs with empty root
  · rw [and_iff_right empty]
  · refine iff_of_false ?_ (fun both => empty both.1)
    intro same
    exact nonempty (List.cons.inj same).2
  · refine iff_of_false ?_ (fun both => empty both.1)
    intro same
    have length := congrArg List.length same
    rw [List.length_append, List.length_cons, List.length_singleton] at length
    omega

/-- The names that stand for a component have the same number of slashes: none, unless it is a literal. -/
theorem NameFor.slashes_eq {comp one two : CString} (first : NameFor opts comp one) (second : NameFor opts comp two) :
    slashes one = slashes two ∧ (one = [chr '/'] ↔ two = [chr '/']) := by
  rw [NameFor] at first second
  split_ifs at first second with wild
  · refine ⟨(List.count_eq_zero.mpr first.2.1).trans (List.count_eq_zero.mpr second.2.1).symm, ?_⟩
    refine iff_of_false ?_ ?_
    · rintro rfl
      exact first.2.1 (List.mem_singleton_self _)
    · rintro rfl
      exact second.2.1 (List.mem_singleton_self _)
  · rw [first, second]
    exact ⟨rfl, Iff.rfl⟩

theorem Alike.join {dir dir' comp one two : CString} (alike : Alike dir dir') (nonempty : comp ≠ [])
    (first : NameFor opts comp one) (second : NameFor opts comp two) :
    Alike (pathJoin dir one) (pathJoin dir' two) := by
  obtain ⟨same, rootName⟩ := first.slashes_eq second
  have some_one := first.ne_nil nonempty
  have some_two := second.ne_nil nonempty
  refine ⟨?_, ?_, ?_⟩
  · rw [slashes_pathJoin, slashes_pathJoin, alike.slashes, same]
    simp only [alike.empty, alike.root]
  · refine iff_of_false ?_ ?_
    · rw [pathJoin_eq]
      exact fun empty => some_one (List.append_eq_nil_iff.mp empty).2
    · rw [pathJoin_eq]
      exact fun empty => some_two (List.append_eq_nil_iff.mp empty).2
  · rw [pathJoin_eq_root_iff some_one, pathJoin_eq_root_iff some_two, alike.empty, rootName]

theorem names_ne_nil {comps names : List CString} (nonempty : ∀ comp ∈ comps, comp ≠ [])
    (each : List.Forall₂ (NameFor opts) comps names) : ∀ name ∈ names, name ≠ [] := by
  induction each with
  | nil =>
    intro name member
    cases member
  | cons named rest ih =>
    rw [List.forall_mem_cons] at nonempty ⊢
    exact ⟨named.ne_nil nonempty.1, ih nonempty.2⟩

/-- Paths with names for the same components are alike. -/
theorem Alike.joinNames {dir dir' : CString} (alike : Alike dir dir') {comps one two : List CString}
    (nonempty : ∀ comp ∈ comps, comp ≠ []) (first : List.Forall₂ (NameFor opts) comps one)
    (second : List.Forall₂ (NameFor opts) comps two) : Alike (joinNames dir one) (joinNames dir' two) := by
  induction first generalizing dir dir' two with
  | nil =>
    cases second
    exact alike
  | @cons comp name comps names named rest ih =>
    rw [List.forall_mem_cons] at nonempty
    cases second with
    | cons named' rest' => exact ih (alike.join nonempty.1 named named') nonempty.2 rest'

theorem pathJoin_length {dir name : CString} (nonempty : name ≠ []) : dir.length < (pathJoin dir name).length := by
  have positive := List.length_pos_of_ne_nil nonempty
  rw [pathJoin]
  split_ifs with empty root
  · rw [empty]
    exact positive
  · rw [root, List.length_singleton, List.length_cons]
    omega
  · rw [List.length_append, List.length_cons]
    omega

theorem joinNames_length (dir : CString) {comps names : List CString} (nonempty : ∀ comp ∈ comps, comp ≠ [])
    (each : List.Forall₂ (NameFor opts) comps names) : dir.length + comps.length ≤ (joinNames dir names).length := by
  induction each generalizing dir with
  | nil => exact le_rfl
  | @cons comp name comps names named rest ih =>
    rw [List.forall_mem_cons] at nonempty
    have longer := @pathJoin_length dir name (named.ne_nil nonempty.1)
    have later := ih (pathJoin dir name) nonempty.2
    rw [List.length_cons]
    exact le_trans (by omega) later

theorem pathJoin_of_long {dir : CString} (long : 2 ≤ dir.length) (name : CString) :
    pathJoin dir name = dir ++ chr '/' :: name := by
  rw [pathJoin, if_neg, if_neg]
  · rintro rfl
    exact absurd long (by decide)
  · rintro rfl
    exact absurd long (by decide)

theorem slashes_pathJoin_of_long {dir : CString} (long : 2 ≤ dir.length) (name : CString) :
    slashes (pathJoin dir name) = slashes dir + 1 + slashes name := by
  rw [pathJoin_of_long long, slashes, List.count_append, List.count_cons_self, slashes, slashes]
  omega

/-- Below a directory with a name every further name adds a slash. -/
theorem slashes_joinNames {dir : CString} (long : 2 ≤ dir.length) (names : List CString) :
    slashes dir + names.length ≤ slashes (joinNames dir names) ∧ 2 ≤ (joinNames dir names).length := by
  induction names generalizing dir with
  | nil => exact ⟨le_rfl, long⟩
  | cons name names ih =>
    have longer : 2 ≤ (pathJoin dir name).length := by
      rw [pathJoin_of_long long, List.length_append]
      omega
    obtain ⟨more, long'⟩ := ih longer
    rw [slashes_pathJoin_of_long long] at more
    refine ⟨?_, long'⟩
    rw [List.length_cons]
    exact le_trans (by omega) more

theorem slashes_mark (path : CString) : slashes (path ++ [chr '/']) = slashes path + 1 := by
  rw [slashes, List.count_append, List.count_singleton_self]
  rfl

/-- A path that ends in a name without slashes does not end in a slash. -/
theorem mark_ne_pathJoin {dir name : CString} (long : 2 ≤ dir.length) (nonempty : name ≠ [])
    (plain : slashes name = 0) (path : CString) : path ++ [chr '/'] ≠ pathJoin dir name := by
  intro same
  have ends := congrArg List.getLast? same
  rw [pathJoin_of_long long, List.getLast?_concat, List.append_cons,
    List.getLast?_append_of_ne_nil _ nonempty] at ends
  exact List.count_eq_zero.mp plain (List.mem_of_getLast? ends.symm)

theorem exists_names_append {front extra names : List CString}
    (each : List.Forall₂ (NameFor opts) (front ++ extra) names) :
    ∃ lead tail, names = lead ++ tail ∧ List.Forall₂ (NameFor opts) front lead ∧
      List.Forall₂ (NameFor opts) extra tail := by
  have leads := List.forall₂_take front.length each
  have tails := List.forall₂_drop front.length each
  rw [List.take_left] at leads
  rw [List.drop_left] at tails
  exact ⟨_, _, (List.take_append_drop front.length names).symm, leads, tails⟩

/-- A path with names for the front of a list of components has none for the rest of it. -/
theorem not_names_of_front {start path : CString} {front extra one two : List CString}
    (nonempty : ∀ comp ∈ front ++ extra, comp ≠ []) (deep : 2 ≤ front.length) (more : extra ≠ [])
    (first : List.Forall₂ (NameFor opts) front one) (second : List.Forall₂ (NameFor opts) (front ++ extra) two)
    (shape : path = joinNames start one ∨ path = joinNames start one ++ [chr '/']) :
    ¬ (path = joinNames start two ∨ path = joinNames start two ++ [chr '/']) := by
  rw [List.forall_mem_append] at nonempty
  obtain ⟨lead, tail, rfl, leads, tails⟩ := exists_names_append second
  obtain ⟨init, name, rfl⟩ : ∃ init name, tail = init ++ [name] := by
    rcases List.eq_nil_or_concat tail with rfl | ⟨init, name, rfl⟩
    · exact absurd (List.forall₂_nil_right_iff.mp tails) more
    · exact ⟨init, name, by rw [List.concat_eq_append]⟩
  have named : name ≠ [] := names_ne_nil nonempty.2 tails name (by simp)
  have counts := ((Alike.refl start).joinNames nonempty.1 first leads).slashes
  have long := (joinNames_length start nonempty.1 leads).trans' (show 2 ≤ start.length + front.length by omega)
  obtain ⟨added, long'⟩ := slashes_joinNames long init
  have whole : joinNames start (lead ++ (init ++ [name])) =
      pathJoin (joinNames (joinNames start lead) init) name := by
    simp only [joinNames, List.foldl_append, List.foldl_cons, List.foldl_nil]
  -- the names behind the front bring at least one slash
  have count := slashes_pathJoin_of_long long' name
  rw [whole]
  have apart : joinNames start one ≠ pathJoin (joinNames (joinNames start lead) init) name := by
    intro same
    have equal := congrArg slashes same
    omega
  rcases shape with rfl | rfl
  · rintro (same | same)
    · exact apart same
    · have equal := congrArg slashes same
      rw [slashes_mark] at equal
      omega
  · rintro (same | same)
    · -- there is no slash left for the last name
      have equal := congrArg slashes same
      rw [slashes_mark] at equal
      exact mark_ne_pathJoin long' named (by omega) _ same
    · exact apart (List.append_cancel_right same)

/-! ## The components behind the 64th -/

theorem levels_eq (noescape : Bool) (pattern : CString) :
    levels noescape pattern =
      (splitComponents noescape pattern).filter (· ≠ []) ++ (droppedComponents noescape pattern).filter (· ≠ []) := by
  rw [levels, splitComponents_eq, droppedComponents, ← List.filter_append, List.take_append_drop]

/-- If a component is dropped, at least two of those that are kept are not empty. -/
theorem two_le_kept {noescape : Bool} (dropped : droppedComponents noescape pattern ≠ []) :
    2 ≤ ((splitComponents noescape pattern).filter (· ≠ [])).length := by
  have chain := components_chain noescape pattern
  have many : GLOB_MAX_COMPONENTS < (components noescape pattern).length := by
    by_contra few
    exact dropped (List.drop_of_length_le (by omega))
  rw [splitComponents_eq]
  generalize components noescape pattern = comps at chain many
  rw [GLOB_MAX_COMPONENTS] at many ⊢
  obtain ⟨c0, c1, c2, c3, rest, rfl⟩ : ∃ c0 c1 c2 c3 rest, comps = c0 :: c1 :: c2 :: c3 :: rest := by
    rcases comps with _ | ⟨c0, _ | ⟨c1, _ | ⟨c2, _ | ⟨c3, rest⟩⟩⟩⟩
    · exact absurd many (by decide)
    · exact absurd many (by simp)
    · exact absurd many (by simp)
    · exact absurd many (by simp)
    · exact ⟨c0, c1, c2, c3, rest, rfl⟩
  -- the second and the third component have a successor
  rw [List.tail_cons, List.isChain_cons_cons, List.isChain_cons_cons] at chain
  have kept : [c1, c2].Sublist ((c0 :: c1 :: c2 :: c3 :: rest).take 64) :=
    .cons c0 (.cons_cons c1 (.cons_cons c2 (List.nil_sublist _)))
  have filtered := (kept.filter (· ≠ [])).length_le
  rwa [List.filter_eq_self.mpr (by simp [chain.1, chain.2.1])] at filtered

/-- Whether the results have a name for each component does not depend on the results. -/
theorem oneNameEach_iff (nameless : ∀ dir, [] ∉ entries fs dir) {path : CString}
    (reached : Reached fs opts false (splitComponents opts.noescape pattern) (startPath pattern) path) :
    OneNameEach opts pattern path ↔ ∀ comp ∈ droppedComponents opts.noescape pattern, comp = [] := by
  obtain ⟨names, each, shape⟩ := names_of_reached nameless reached
  rw [OneNameEach, levels_eq]
  constructor
  · rintro ⟨all, every, shape'⟩
    by_contra dropped
    have more : (droppedComponents opts.noescape pattern).filter (· ≠ []) ≠ [] := by
      intro none
      apply dropped
      intro comp member
      simpa using List.filter_eq_nil_iff.mp none comp member
    have nonempty : ∀ comp ∈ (splitComponents opts.noescape pattern).filter (· ≠ []) ++
        (droppedComponents opts.noescape pattern).filter (· ≠ []), comp ≠ [] := by
      rw [← List.filter_append]
      intro comp member
      simpa using List.of_mem_filter member
    have deep := two_le_kept (fun none => more (by rw [none, List.filter_nil]))
    exact not_names_of_front nonempty deep more each every (shape.imp_right And.right) (shape'.imp_right And.right)
  · intro empty
    have none : (droppedComponents opts.noescape pattern).filter (· ≠ []) = [] := by
      apply List.filter_eq_nil_iff.mpr
      intro comp member
      simp [empty comp member]
    rw [none, List.append_nil]
    exact ⟨names, each, shape⟩

/-- Every path has one name for each nonempty component exactly if no such component is dropped, or if the others
match nothing or more than the limit allows. -/
theorem names_every_iff (fs : FileSystem) (pattern : CString) (flags : BitVec 32) (pglob : GlobT)
    (nameless : ∀ dir, [] ∉ entries fs dir) (wild : globHasMeta (hasFlag flags GLOB_NOESCAPE) pattern = true)
    (short : pattern.length < bufferSize) (checked : hasFlag flags GLOB_NOCHECK = false)
    (unseeded : seeds flags pglob = []) :
    NamesEvery fs pattern flags pglob ↔
      (∀ comp ∈ droppedComponents (hasFlag flags GLOB_NOESCAPE) pattern, comp = []) ∨
        ¬ Found fs (globOptions pattern flags) pattern ∨ ¬ Roomy fs (globOptions pattern flags) pattern [] := by
  constructor
  · intro every
    by_contra fails
    rw [not_or, not_or, not_not, not_not] at fails
    obtain ⟨dropped, ⟨-, path, reached⟩, roomy⟩ := fails
    have member := (mem_matchesOf wild short).mpr reached
    obtain ⟨result, finished, paths⟩ := globResult_of_ne_nil pattern flags (List.ne_nil_of_mem member)
    have returned := @glob_eq_result fs (fun _ => true) pattern flags pglob (fun _ => rfl) (not_literalOverrun wild)
      (by rwa [unseeded])
    rw [unseeded, List.nil_append, finished] at returned
    have named := every _ 0 result returned path (by rwa [paths])
    exact dropped ((oneNameEach_iff nameless reached).mp named)
  · intro holds succeeds ret result returned path member
    obtain ⟨found, roomy⟩ := mem_matchesOf_of_glob checked unseeded returned member
    have reached := (mem_matchesOf wild short).mp found
    rcases holds with kept | nothing | crowded
    · exact (oneNameEach_iff nameless reached).mpr kept
    · exact (nothing ⟨short, path, reached⟩).elim
    · exact (crowded roomy).elim

theorem names_every_iff_files : NamesEvery twoLevels (['d', '/', '*'].map chr) 0 ⟨0, none, 0⟩ := by
  have nameless : ∀ dir, [] ∉ entries twoLevels dir := by
    intro dir
    rw [entries, twoLevels]
    dsimp only
    generalize (if dir = [] then [chr '.'] else dir) = path
    split_ifs <;> decide
  apply (names_every_iff twoLevels (['d', '/', '*'].map chr) 0 ⟨0, none, 0⟩ nameless (by decide) (by decide)
    (by decide) (by decide)).mpr
  exact .inl (by decide)

/-! ## A pattern of 65 components -/

/-- Every path names a directory, and all directories are empty. -/
def emptyDirectories : FileSystem where
  opendir _ := some []
  stat _ := some .directory
  lstat _ := some .directory
  names_distinct _ names listed := by
    cases listed
    exact .nil
  names_plain _ names listed := by
    cases listed
    exact fun _ member => absurd member List.not_mem_nil
  stat_of_lstat _ _ := rfl
  stat_slash _ _ := rfl

/-- The pattern `e/e/…/e/*` with `n` literal components. -/
def deepPattern (n : ℕ) : CString := (List.replicate n [chr 'e', chr '/']).flatten ++ [chr '*']

theorem deepPattern_succ (n : ℕ) : deepPattern (n + 1) = chr 'e' :: chr '/' :: deepPattern n := by
  rw [deepPattern, List.replicate_succ, List.flatten_cons]
  rfl

theorem dropInner_eq_self {rest : List CString} (nonempty : ∀ piece ∈ rest, piece ≠ []) : dropInner rest = rest := by
  fun_induction dropInner rest with
  | case1 | case2 => rfl
  | case3 next rest ih => exact absurd rfl (nonempty [] (List.mem_cons_self ..))
  | case4 piece next rest _ ih => rw [ih fun piece member => nonempty piece (List.mem_cons_of_mem _ member)]

theorem components_deepPattern (n : ℕ) :
    components false (deepPattern n) = List.replicate n [chr 'e'] ++ [[chr '*']] := by
  have all : pieces false (deepPattern n) = List.replicate n [chr 'e'] ++ [[chr '*']] := by
    induction n with
    | zero => rfl
    | succ n ih =>
      have slash := pieces_slash false (deepPattern n)
      rw [deepPattern_succ, pieces.eq_def, List.replicate_succ, List.cons_append, ← ih]
      dsimp only
      rw [if_neg (by decide), if_neg (by decide), slash]
      rfl
  have nonempty : ∀ piece ∈ List.replicate n [chr 'e'] ++ [[chr '*']], piece ≠ [] := by
    intro piece member
    rcases List.mem_append.mp member with entry | star
    · rw [List.eq_of_mem_replicate entry]
      decide
    · rw [List.mem_singleton.mp star]
      decide
  rw [components, all]
  cases n with
  | zero => rfl
  | succ n =>
    rw [List.replicate_succ, List.cons_append] at nonempty ⊢
    rw [keepFirst_cons _ (by simp), dropInner_eq_self]
    exact fun piece member => nonempty piece (List.mem_cons_of_mem _ member)

theorem globHasMeta_deepPattern (n : ℕ) : globHasMeta false (deepPattern n) = true := by
  induction n with
  | zero => decide
  | succ n ih =>
    obtain ⟨y, s, shape⟩ : ∃ y s, deepPattern n = y :: s := by
      cases n with
      | zero => exact ⟨_, _, rfl⟩
      | succ n => exact ⟨_, _, deepPattern_succ n⟩
    rw [shape] at ih
    rw [deepPattern_succ, shape, globHasMeta, if_neg (by decide), if_neg (by decide), globHasMeta, if_neg (by decide),
      if_neg (by decide), ih]

theorem deepPattern_length (n : ℕ) : (deepPattern n).length = 2 * n + 1 := by
  induction n with
  | zero => rfl
  | succ n ih =>
    rw [deepPattern_succ, List.length_cons, List.length_cons, ih]
    omega

/-- Each level of the expansion has one path. -/
theorem frontier_emptyDirectories (free : opts.Unrestricted) (n : ℕ) {dir : CString}
    (fits : dir.length + 2 * n < bufferSize) :
    LevelsBounded emptyDirectories opts (List.replicate n [chr 'e']) [dir] ∧
      frontier emptyDirectories opts false (List.replicate n [chr 'e']) [dir] =
        [joinNames dir (List.replicate n [chr 'e'])] := by
  induction n generalizing dir with
  | zero => exact ⟨trivial, rfl⟩
  | succ n ih =>
    have length : (pathJoin dir [chr 'e']).length ≤ dir.length + 2 := by
      rw [pathJoin]
      split_ifs <;> simp only [List.length_append, List.length_cons, List.length_nil] <;> omega
    have level : ∀ last, levelPaths emptyDirectories opts last [chr 'e'] dir = [pathJoin dir [chr 'e']] := by
      intro last
      have plain : globUnescape opts.noescape [chr 'e'] = [chr 'e'] := by cases opts.noescape <;> decide
      rw [levelPaths, if_neg (by cases opts.noescape <;> decide), plain, literalPath_eq free (by omega)]
      cases last <;> rfl
    rw [List.replicate_succ, LevelsBounded, frontier, if_neg (by decide), if_neg (by decide), List.flatMap_singleton,
      List.flatMap_singleton, level, level]
    obtain ⟨bounded, result⟩ := @ih (pathJoin dir [chr 'e']) (by omega)
    refine ⟨⟨?_, bounded⟩, result⟩
    rw [List.length_singleton, GLOB_MAX_MATCHES]
    omega

/-- The entries of the 64th directory are asked for, of which there are none; the directory itself is returned. -/
theorem deep_pattern_returns_front :
    glob emptyDirectories (fun _ => true) (deepPattern 64) 0 ⟨0, none, 0⟩ =
        some (0, ⟨1, some [some (joinNames [] (List.replicate 64 [chr 'e'])), none], 0⟩) ∧
      ¬ NamesEvery emptyDirectories (deepPattern 64) 0 ⟨0, none, 0⟩ := by
  have wild : globHasMeta (globOptions (deepPattern 64) 0).noescape (deepPattern 64) = true :=
    globHasMeta_deepPattern 64
  have short : (deepPattern 64).length < bufferSize := by
    rw [deepPattern_length, bufferSize]
    omega
  have start : startPath (deepPattern 64) = [] := rfl
  have kept : splitComponents (globOptions (deepPattern 64) 0).noescape (deepPattern 64) =
      List.replicate 64 [chr 'e'] := by
    rw [splitComponents_eq]
    exact (congrArg _ (components_deepPattern 64)).trans (List.take_left' List.length_replicate)
  have unclosed : (deepPattern 64).getLast? ≠ some (chr '/') := by
    rw [deepPattern, List.getLast?_concat]
    decide
  have free : (globOptions (deepPattern 64) 0).Unrestricted := unrestricted_of_permitted (by decide) unclosed
  obtain ⟨bounded, result⟩ := @frontier_emptyDirectories _ free 64 [] (by decide)
  have collected : matchesOf emptyDirectories (globOptions (deepPattern 64) 0) (deepPattern 64) =
      [joinNames [] (List.replicate 64 [chr 'e'])] := by
    rw [matchesOf_eq_frontier wild short, start, kept, result]
  have roomy : Roomy emptyDirectories (globOptions (deepPattern 64) 0) (deepPattern 64) [] := by
    rw [Roomy, start, kept, collected]
    exact ⟨fun _ _ => bounded, by decide⟩
  have returned := @glob_eq_result emptyDirectories (fun _ => true) (deepPattern 64) 0 ⟨0, none, 0⟩ (fun _ => rfl)
    (not_literalOverrun wild) roomy
  rw [collected] at returned
  refine ⟨returned, ?_⟩
  intro every
  have reached := (mem_matchesOf wild short).mp (collected ▸ List.mem_singleton_self _)
  have named := every _ _ _ returned _ (List.mem_singleton_self _)
  have empty := (oneNameEach_iff (fun _ => List.not_mem_nil) reached).mp named [chr '*'] ?_
  · cases empty
  · have last : [chr '*'] ∈ (components false (deepPattern 64)).drop GLOB_MAX_COMPONENTS := by
      rw [components_deepPattern, GLOB_MAX_COMPONENTS, List.drop_left' List.length_replicate]
      exact List.mem_singleton_self _
    exact last

end CLite
