import CLite.Lib.Fallible
import CLite.Model.Fnmatch

/-! # `glob`

The path expansion of `compat.c`. The state of a computation is the number of allocations made so far,
and an oracle says which of them succeed. A computation stops early when memory runs out, which every
caller of `glob_vec_push` turns into `GLOB_NOSPACE`, or when a string does not fit the 1024-byte array
it is copied to, where the C program has no defined behaviour.
-/

namespace CLite

def GLOB_MARK : BitVec 32 := 1 <<< 1
def GLOB_NOCHECK : BitVec 32 := 1 <<< 4
def GLOB_APPEND : BitVec 32 := 1 <<< 5
def GLOB_NOESCAPE : BitVec 32 := 1 <<< 6
def GLOB_PERIOD : BitVec 32 := 1 <<< 7
def GLOB_ONLYDIR : BitVec 32 := 1 <<< 13

def GLOB_NOSPACE : ℕ := 1
def GLOB_NOMATCH : ℕ := 3

def GLOB_MAX_MATCHES : ℕ := 1024
def GLOB_MAX_COMPONENTS : ℕ := 64

/-- The size of the arrays `lit`, `buf`, `joined` and `final`. -/
def bufferSize : ℕ := 1024

/-! ## The file system -/

inductive FileKind where
  | directory
  | other
deriving DecidableEq

/-- The file system as `glob` sees it: the names that `readdir` yields, and what `stat` and `lstat` say
about a path. -/
structure FileSystem where
  opendir : CString → Option (List CString)
  stat : CString → Option FileKind
  lstat : CString → Option FileKind
  names_distinct : ∀ path names, opendir path = some names → names.Nodup
  names_plain : ∀ path names, opendir path = some names → ∀ name ∈ names, chr '/' ∉ name
  stat_of_lstat : ∀ path, lstat path = some .directory → stat path = some .directory
  stat_slash : ∀ path, stat path = some .directory → stat (path ++ [chr '/']) = some .directory

/-- `glob_is_dir`. -/
def globIsDir (fs : FileSystem) (path : CString) : Bool := fs.stat path = some .directory

/-! ## String vectors -/

inductive Stop where
  | nospace
  | overrun
deriving DecidableEq

abbrev GlobM := StateT ℕ (Except Stop)

/-- Whether the next allocation succeeds. -/
def allocate (succeeds : ℕ → Bool) : GlobM Bool := do
  let count ← get
  set (count + 1)
  return succeeds count

/-- A vector of strings never holds more than `GLOB_MAX_MATCHES` of them. -/
structure GlobVec where
  v : List CString
  cap : ℕ
  bounded : v.length ≤ GLOB_MAX_MATCHES

def GlobVec.empty : GlobVec := ⟨[], 0, Nat.zero_le _⟩

/-- The part of `glob_vec_push` that makes room for one more string; the capacity afterwards. -/
def globVecGrow (succeeds : ℕ → Bool) (sv : GlobVec) : GlobM ℕ :=
  if sv.cap < sv.v.length + 1 then do
    let granted ← allocate succeeds
    if granted then pure (if sv.cap = 0 then 16 else sv.cap * 2) else throw .nospace
  else pure sv.cap

def globVecPush (succeeds : ℕ → Bool) (sv : GlobVec) (s : CString) : GlobM GlobVec :=
  if full : GLOB_MAX_MATCHES ≤ sv.v.length then throw .nospace
  else do
    let cap ← globVecGrow succeeds sv
    let granted ← allocate succeeds
    if granted then pure ⟨sv.v ++ [s], cap, by rw [List.length_append]; exact Nat.lt_of_not_le full⟩
    else throw .nospace

/-! ## Components -/

def globHasMeta (noescape : Bool) : CString → Bool
  | [] => false
  | [x] => x = chr '*' ∨ x = chr '?' ∨ x = chr '['
  | x :: y :: s =>
      if x = chr '\\' ∧ noescape = false then globHasMeta noescape s
      else if x = chr '*' ∨ x = chr '?' ∨ x = chr '[' then true
      else globHasMeta noescape (y :: s)

/-- The string that `glob_unescape_to` writes. -/
def globUnescape (noescape : Bool) : CString → CString
  | [] => []
  | [x] => [x]
  | x :: y :: s =>
      if x = chr '\\' ∧ noescape = false then y :: globUnescape noescape s
      else x :: globUnescape noescape (y :: s)

def globUnescapeTo (noescape : Bool) (src : CString) : GlobM CString :=
  if (globUnescape noescape src).length < bufferSize then pure (globUnescape noescape src)
  else throw .overrun

def globJoin (dir name : CString) : Option CString :=
  if dir = [] then
    if bufferSize < name.length + 1 then none else some name
  else if dir = [chr '/'] then
    if bufferSize < 1 + name.length + 1 then none else some (chr '/' :: name)
  else if bufferSize < dir.length + 1 + name.length + 1 then none
  else some (dir ++ chr '/' :: name)

/-- The loop that cuts the pattern at its unescaped slashes, at the position behind `start`. -/
def splitLoop (noescape : Bool) : CString → CString → List CString → List CString
  | [], start, comp => if comp.length < GLOB_MAX_COMPONENTS then comp ++ [start] else comp
  | x :: p, start, comp =>
      if comp.length < GLOB_MAX_COMPONENTS then
        if x = chr '/' then
          splitLoop noescape p [] (if comp = [] ∨ start ≠ [] then comp ++ [start] else comp)
        else
          match p with
          | [] => splitLoop noescape [] (start ++ [x]) comp
          | y :: q =>
              if x = chr '\\' ∧ noescape = false then splitLoop noescape q (start ++ [x, y]) comp
              else splitLoop noescape (y :: q) (start ++ [x]) comp
      else comp

def splitComponents (noescape : Bool) (pattern : CString) : List CString := splitLoop noescape pattern [] []

/-- The pattern ends in a slash with an even number of backslashes before it. -/
def trailingSlash (noescape : Bool) (pattern : CString) : Bool :=
  1 < pattern.length ∧ pattern.getLast? = some (chr '/') ∧
    (noescape = true ∨ (pattern.dropLast.reverse.takeWhile (· = chr '\\')).length % 2 = 0)

/-! ## Expansion -/

structure GlobOptions where
  noescape : Bool
  fnflags : BitVec 32
  markdirs : Bool
  onlydir : Bool
  trailingSlash : Bool

def globOptions (pattern : CString) (flags : BitVec 32) : GlobOptions :=
  let noescape := hasFlag flags GLOB_NOESCAPE
  let fnflags := if noescape then FNM_PERIOD ||| FNM_NOESCAPE else FNM_PERIOD
  { noescape
    fnflags := if hasFlag flags GLOB_PERIOD then fnflags &&& ~~~FNM_PERIOD else fnflags
    markdirs := hasFlag flags (GLOB_MARK ||| GLOB_ONLYDIR)
    onlydir := hasFlag flags GLOB_ONLYDIR
    trailingSlash := trailingSlash noescape pattern }

variable (fs : FileSystem) (succeeds : ℕ → Bool) (opts : GlobOptions)

/-- The path that an entry of `dir` contributes under a component with metacharacters. -/
def wildcardPath (last : Bool) (comp dir name : CString) : Option CString :=
  if name = [chr '.'] ∨ name = [chr '.', chr '.'] then none
  else if fnmatch comp name opts.fnflags ≠ 0 then none
  else
    match globJoin dir name with
    | none => none
    | some joined =>
        if last = false ∨ (opts.trailingSlash || opts.onlydir) = false ∨ globIsDir fs joined then
          if (last ∧ opts.markdirs ∧ globIsDir fs joined) ∧ joined.length + 2 ≤ bufferSize then
            some (joined ++ [chr '/'])
          else some joined
        else none

/-- The path that a component without metacharacters contributes below `dir`. -/
def literalPath (last : Bool) (lit dir : CString) : Option CString :=
  match globJoin dir lit with
  | none => none
  | some joined =>
      if last = false then
        if globIsDir fs joined then some joined else none
      else
        match fs.lstat joined with
        | none => none
        | some kind =>
            if (opts.trailingSlash || opts.onlydir) ∧ kind ≠ .directory then none
            else if opts.markdirs ∧ kind = .directory then
              if bufferSize < joined.length + 2 then none else some (joined ++ [chr '/'])
            else some joined

/-- Push a path unless the loop body skipped it. -/
def pushPath (next : GlobVec) : Option CString → GlobM GlobVec
  | none => pure next
  | some path => globVecPush succeeds next path

def expandDirectory (last : Bool) (comp : CString) (next : GlobVec) (dir : CString) : GlobM GlobVec :=
  match fs.opendir (if dir = [] then [chr '.'] else dir) with
  | none => pure next
  | some names =>
      names.foldlM (fun next name => pushPath succeeds next (wildcardPath fs opts last comp dir name)) next

def expandWildcard (last : Bool) (comp : CString) (cur : GlobVec) : GlobM GlobVec :=
  cur.v.foldlM (expandDirectory fs succeeds opts last comp) .empty

def expandLiteral (last : Bool) (comp : CString) (cur : GlobVec) : GlobM GlobVec := do
  let lit ← globUnescapeTo opts.noescape comp
  cur.v.foldlM (fun next dir => pushPath succeeds next (literalPath fs opts last lit dir)) .empty

def expandLevel (last : Bool) (comp : CString) (cur : GlobVec) : GlobM GlobVec :=
  if globHasMeta opts.noescape comp then expandWildcard fs succeeds opts last comp cur
  else expandLiteral fs succeeds opts last comp cur

/-- The loop over the components; empty ones are skipped, and an empty level ends it. -/
def expandComponents : List CString → GlobVec → GlobM GlobVec
  | [], cur => pure cur
  | comp :: rest, cur =>
      if comp = [] then expandComponents rest cur
      else do
        let next ← expandLevel fs succeeds opts (rest = []) comp cur
        if next.v = [] then pure next else expandComponents rest next

/-- The results for the pattern, pushed behind those already in `out`. -/
def globMatches (pattern : CString) (out : GlobVec) : GlobM GlobVec :=
  if globHasMeta opts.noescape pattern = false then do
    let lit ← globUnescapeTo opts.noescape pattern
    globVecPush succeeds out lit
  else if bufferSize ≤ pattern.length then pure out
  else do
    let cur ← globVecPush succeeds .empty (if pattern.head? = some (chr '/') then [chr '/'] else [])
    let cur ← expandComponents fs succeeds opts (splitComponents opts.noescape pattern) cur
    cur.v.foldlM (globVecPush succeeds) out

/-! ## `glob` -/

/-- `glob_t`; the array `gl_pathv` has its terminating `NULL` as its last entry. -/
structure GlobT where
  pathc : ℕ
  pathv : Option (List (Option CString))
  offs : ℕ
deriving DecidableEq

/-- The strings a `glob_t` holds. -/
def GlobT.paths (pglob : GlobT) : List CString :=
  ((pglob.pathv.getD []).take pglob.pathc).filterMap id

/-- The part of `glob` up to the label `done`. -/
def globCollect (pattern : CString) (flags : BitVec 32) (pglob : GlobT) : GlobM GlobVec := do
  let out ← (if hasFlag flags GLOB_APPEND then pglob.paths else []).foldlM (globVecPush succeeds) .empty
  globMatches fs succeeds (globOptions pattern flags) pattern out

/-- The part of `glob` from the label `done`, when memory has not run out before. -/
def globFinish (pattern : CString) (flags : BitVec 32) (pglob : GlobT) (out : GlobVec) (count : ℕ) :
    Option (ℕ × GlobT) :=
  if out.v = [] then
    if hasFlag flags GLOB_NOCHECK then
      let lit := globUnescape (hasFlag flags GLOB_NOESCAPE) pattern
      if bufferSize ≤ lit.length then none
      else if succeeds count = false ∨ succeeds (count + 1) = false then
        some (GLOB_NOSPACE, { pglob with pathv := none })
      else some (0, ⟨1, some [some lit, none], 0⟩)
    else some (GLOB_NOMATCH, ⟨0, none, 0⟩)
  else if succeeds count = false then some (GLOB_NOSPACE, { pglob with pathc := 0, pathv := none })
  else some (0, ⟨out.v.length, some (out.v.map some ++ [none]), 0⟩)

/-- `glob`: the return code and the `glob_t` afterwards, or nothing when an array is overrun. -/
def glob (pattern : CString) (flags : BitVec 32) (pglob : GlobT) : Option (ℕ × GlobT) :=
  match (globCollect fs succeeds pattern flags pglob).run 0 with
  | .error .overrun => none
  | .error .nospace =>
      some (GLOB_NOSPACE,
        if hasFlag flags GLOB_APPEND then pglob else { pglob with pathc := 0, pathv := none })
  | .ok (out, count) => globFinish succeeds pattern flags pglob out count

end CLite
