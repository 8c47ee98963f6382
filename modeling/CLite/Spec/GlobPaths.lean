import CLite.Model.Glob
import CLite.Spec.PatternTokens

/-! # The paths a pattern stands for

A pattern is cut at its unescaped slashes. Each component is chosen in turn below the paths chosen so
far: its own text, or an entry of the directory that it matches. `selections` lists the outcomes level
by level in directory order, and `Selected` says the same without an order. `frontier` and `Reached` do
this for all flags and with the length limits of the path arrays.
-/

namespace CLite

/-! ## Components -/

/-- The pieces of a pattern between its unescaped slashes. -/
def pieces (noescape : Bool) : CString → List CString
  | [] => [[]]
  | x :: p =>
      if x = chr '/' then [] :: pieces noescape p
      else
        match p with
        | [] => [[x]]
        | y :: q =>
            if x = chr '\\' ∧ noescape = false then (pieces noescape q).modifyHead ([x, y] ++ ·)
            else (pieces noescape (y :: q)).modifyHead ([x] ++ ·)

/-- Drop the empty pieces, except the last piece. -/
def dropInner : List CString → List CString
  | [] => []
  | [final] => [final]
  | piece :: next :: rest =>
      if piece = [] then dropInner (next :: rest) else piece :: dropInner (next :: rest)

/-- Keep the first piece, which is empty in front of a leading slash. -/
def keepFirst : List CString → List CString
  | [] => []
  | [whole] => [whole]
  | first :: next :: rest => first :: dropInner (next :: rest)

/-- The components of a pattern: its pieces without the empty inner ones. -/
def components (noescape : Bool) (pattern : CString) : List CString := keepFirst (pieces noescape pattern)

/-- The components that are expanded one after another. -/
def levels (noescape : Bool) (pattern : CString) : List CString :=
  (components noescape pattern).filter (· ≠ [])

/-- Whether a following character would be escaped. -/
def pendingEscape : CString → Bool
  | [] => false
  | [x] => x = chr '\\'
  | x :: y :: p => if x = chr '\\' then pendingEscape p else pendingEscape (y :: p)

/-- The pattern ends in a slash that is not escaped. -/
def EndsInSlash (noescape : Bool) (pattern : CString) : Prop :=
  ∃ front, pattern = front ++ [chr '/'] ∧ (noescape = true ∨ pendingEscape front = false)

/-- The characters that a pattern spells, each with whether a backslash escapes it. A backslash at the end stands for
itself. -/
inductive Spelling (noescape : Bool) : CString → List (Bool × CChar) → Prop
  | nil : Spelling noescape [] []
  | escaped {c : CChar} {rest : CString} {chars : List (Bool × CChar)} (escapes : noescape = false)
      (tail : Spelling noescape rest chars) : Spelling noescape (chr '\\' :: c :: rest) ((true, c) :: chars)
  | plain {c : CChar} {rest : CString} {chars : List (Bool × CChar)}
      (unescaping : c = chr '\\' → noescape = true ∨ rest = []) (tail : Spelling noescape rest chars) :
      Spelling noescape (c :: rest) ((false, c) :: chars)

/-! ## Selections -/

/-- A path below a directory; the empty path is the current directory. -/
def pathJoin (dir name : CString) : CString :=
  if dir = [] then name else if dir = [chr '/'] then chr '/' :: name else dir ++ chr '/' :: name

/-- Where the expansion starts. -/
def startPath (pattern : CString) : CString :=
  if pattern.head? = some (chr '/') then [chr '/'] else []

variable (fs : FileSystem) (noescape : Bool) (fnflags : BitVec 32)

/-- The names in a directory, in the order of `readdir`. -/
def entries (dir : CString) : List CString :=
  (fs.opendir (if dir = [] then [chr '.'] else dir)).getD []

/-- An entry that a component with metacharacters stands for. -/
def Eligible (comp name : CString) : Prop :=
  name ≠ [chr '.'] ∧ name ≠ [chr '.', chr '.'] ∧ fnmatch comp name fnflags = 0

instance (comp name : CString) : Decidable (Eligible fnflags comp name) :=
  inferInstanceAs (Decidable (_ ∧ _ ∧ _))

/-- The paths that are considered for a component below a directory. -/
def candidates (comp dir : CString) : List CString :=
  if globHasMeta noescape comp then
    ((entries fs dir).filter fun name => Eligible fnflags comp name).map (pathJoin dir)
  else [pathJoin dir (globUnescape noescape comp)]

/-- The paths chosen for a component: a literal must exist, and be a directory if more follows. -/
def choices (last : Bool) (comp dir : CString) : List CString :=
  if globHasMeta noescape comp then candidates fs noescape fnflags comp dir
  else
    (candidates fs noescape fnflags comp dir).filter fun path =>
      if last then (fs.lstat path).isSome else globIsDir fs path

/-- The outcomes of all choices, level by level. -/
def selections : List CString → List CString → List CString
  | [], dirs => dirs
  | comp :: rest, dirs =>
      selections rest (dirs.flatMap (choices fs noescape fnflags (rest = []) comp))

/-- A path that arises by one choice for each component. -/
inductive Selected : List CString → CString → CString → Prop
  | done (path : CString) : Selected [] path path
  | entry {comp dir name path : CString} {rest : List CString}
      (wild : globHasMeta noescape comp = true) (listed : name ∈ entries fs dir)
      (eligible : Eligible fnflags comp name) (more : Selected rest (pathJoin dir name) path) :
      Selected (comp :: rest) dir path
  | directory {comp dir path : CString} {rest : List CString}
      (literal : globHasMeta noescape comp = false) (inner : rest ≠ [])
      (isDir : globIsDir fs (pathJoin dir (globUnescape noescape comp)) = true)
      (more : Selected rest (pathJoin dir (globUnescape noescape comp)) path) :
      Selected (comp :: rest) dir path
  | file {comp dir : CString} (literal : globHasMeta noescape comp = false)
      (present : (fs.lstat (pathJoin dir (globUnescape noescape comp))).isSome = true) :
      Selected [comp] dir (pathJoin dir (globUnescape noescape comp))

/-- No level has more than 1024 paths, and all candidates fit the path arrays. -/
def WithinLimits : List CString → List CString → Prop
  | [], _ => True
  | comp :: rest, dirs =>
      (∀ dir ∈ dirs, ∀ path ∈ candidates fs noescape fnflags comp dir, path.length < bufferSize) ∧
        (dirs.flatMap (choices fs noescape fnflags (rest = []) comp)).length ≤ GLOB_MAX_MATCHES ∧
        WithinLimits rest (dirs.flatMap (choices fs noescape fnflags (rest = []) comp))

/-! ## All flags -/

variable (opts : GlobOptions)

/-- The paths that the expansion of a component adds below a directory. -/
def levelPaths (last : Bool) (comp dir : CString) : List CString :=
  if globHasMeta opts.noescape comp then (entries fs dir).filterMap (wildcardPath fs opts last comp dir)
  else (literalPath fs opts last (globUnescape opts.noescape comp) dir).toList

/-- The level that is left after the given components; `more` tells that others follow them. -/
def frontier (more : Bool) : List CString → List CString → List CString
  | [], dirs => dirs
  | comp :: rest, dirs =>
      if comp = [] then frontier more rest dirs
      else frontier more rest (dirs.flatMap (levelPaths fs opts (!more && rest = []) comp))

/-- No level has more than 1024 paths. -/
def LevelsBounded : List CString → List CString → Prop
  | [], _ => True
  | comp :: rest, dirs =>
      if comp = [] then LevelsBounded rest dirs
      else
        (dirs.flatMap (levelPaths fs opts (rest = []) comp)).length ≤ GLOB_MAX_MATCHES ∧
          LevelsBounded rest (dirs.flatMap (levelPaths fs opts (rest = []) comp))

/-- What the pattern contributes to the results. -/
def matchesOf (pattern : CString) : List CString :=
  if globHasMeta opts.noescape pattern = false then [globUnescape opts.noescape pattern]
  else if bufferSize ≤ pattern.length then []
  else frontier fs opts false (splitComponents opts.noescape pattern) [startPath pattern]

/-- No level and not the whole result exceeds 1024 paths. -/
def Roomy (pattern : CString) (seeds : List CString) : Prop :=
  (globHasMeta opts.noescape pattern = true → pattern.length < bufferSize →
    LevelsBounded fs opts (splitComponents opts.noescape pattern) [startPath pattern]) ∧
    (seeds ++ matchesOf fs opts pattern).length ≤ GLOB_MAX_MATCHES

/-- A path that the expansion reaches from a directory. -/
inductive Reached (more : Bool) : List CString → CString → CString → Prop
  | done (path : CString) : Reached more [] path path
  | skip {dir path : CString} {rest : List CString} (tail : Reached more rest dir path) :
      Reached more ([] :: rest) dir path
  | step {comp dir next path : CString} {rest : List CString} (nonempty : comp ≠ [])
      (chosen : next ∈ levelPaths fs opts (!more && rest = []) comp dir)
      (tail : Reached more rest next path) : Reached more (comp :: rest) dir path

/-! ## One name for each component -/

/-- A name that stands for a component: an entry's name that it matches, or its own text. -/
def NameFor (comp name : CString) : Prop :=
  if globHasMeta opts.noescape comp then name ≠ [] ∧ chr '/' ∉ name ∧ fnmatch comp name opts.fnflags = 0
  else name = globUnescape opts.noescape comp

/-- The path of names below a directory. -/
def joinNames (dir : CString) (names : List CString) : CString := names.foldl pathJoin dir

/-- The path has exactly one name for each nonempty component of the pattern; a directory may be marked by a slash. -/
def OneNameEach (pattern path : CString) : Prop :=
  ∃ names, List.Forall₂ (NameFor opts) (levels opts.noescape pattern) names ∧
    (path = joinNames (startPath pattern) names ∨
      opts.markdirs = true ∧ path = joinNames (startPath pattern) names ++ [chr '/'])

/-! ## Small file systems -/

/-- What a path names when the current directory has a single entry, `e`. -/
def entryKind (kind : FileKind) : CString → Option FileKind
  | [] => none
  | x :: rest =>
      if rest.all (· = chr '/') then
        if x = chr '.' then some .directory
        else if x = chr 'e' ∧ (kind = .directory ∨ rest = []) then some kind
        else none
      else none

/-- A file system with a single entry, `e`, in the current directory. -/
def oneEntry (kind : FileKind) : FileSystem where
  opendir path := if path = [chr '.'] then some [[chr 'e']] else none
  stat := entryKind kind
  lstat := entryKind kind
  names_distinct path names listed := by
    split at listed <;> cases listed
    exact .cons (by simp) .nil
  names_plain path names listed := by
    split at listed <;> cases listed
    decide
  stat_of_lstat _ directory := directory
  stat_slash path directory := by
    cases path with
    | nil => cases directory
    | cons x rest =>
      simp only [entryKind] at directory
      split_ifs at directory with slashes current entry
      all_goals
        have closed : (rest ++ [chr '/']).all (· = chr '/') = true := by
          rw [List.all_append, slashes]
          decide
      · rw [List.cons_append, entryKind, if_pos closed, if_pos current]
      · rw [List.cons_append, entryKind, if_pos closed, if_neg current,
          if_pos ⟨entry.1, .inl (Option.some.inj directory)⟩, directory]

/-- What a path names when the current directory has the directory `d` with the files `a`, `b` and `.h`. -/
def treeKind (path : CString) : Option FileKind :=
  let bare := (path.reverse.dropWhile (· = chr '/')).reverse
  if bare = [chr '.'] ∨ bare = [chr 'd'] then some .directory
  else if path = ['d', '/', 'a'].map chr ∨ path = ['d', '/', 'b'].map chr ∨ path = ['d', '/', '.', 'h'].map chr then
    some .other
  else none

/-- A file system with the directory `d` in the current directory, and three files in it. -/
def twoLevels : FileSystem where
  opendir path :=
    if path = [chr '.'] then some [[chr 'd']]
    else if path = [chr 'd'] then some ([['.'], ['.', '.'], ['b'], ['.', 'h'], ['a']].map (List.map chr))
    else none
  stat := treeKind
  lstat := treeKind
  names_distinct path names listed := by
    split_ifs at listed <;> cases listed <;> decide
  names_plain path names listed := by
    split_ifs at listed <;> cases listed <;> decide
  stat_of_lstat _ directory := directory
  stat_slash path directory := by
    simp only [treeKind] at directory ⊢
    split_ifs at directory with inside
    · rw [List.reverse_append, List.reverse_singleton, List.singleton_append, List.dropWhile_cons_of_pos (by simp),
        if_pos inside]
    · cases directory

end CLite
