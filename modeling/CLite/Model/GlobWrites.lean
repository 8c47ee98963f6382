import CLite.Lib.Logged
import CLite.Model.Glob

/-! # What `glob` writes into its path arrays

The expansion once more, with the strings that are copied to the arrays `lit`, `buf`, `joined` and `final`, each
where the source copies it. A slash that is appended in place is the longer string written to the same array.
Everything else is taken from the model without writes.
-/

namespace CLite

open Logged

/-- The arrays of 1024 bytes. -/
inductive PathArray where
  | lit | buf | joined | final
deriving DecidableEq

/-- A string that is written to an array, with its terminator. -/
structure PathWrite where
  array : PathArray
  text : CString
deriving DecidableEq

abbrev GlobW := Logged ℕ Stop PathWrite

/-- `glob_unescape_to` into `lit`. -/
def globUnescapeToW (noescape : Bool) (src : CString) : GlobW CString :=
  after [⟨.lit, globUnescape noescape src⟩] (globUnescapeTo noescape src)

variable (fs : FileSystem) (succeeds : ℕ → Bool) (opts : GlobOptions)

/-- The writes for an entry of a directory. -/
def wildcardWrites (last : Bool) (comp dir name : CString) : List PathWrite :=
  if name = [chr '.'] ∨ name = [chr '.', chr '.'] then []
  else if fnmatch comp name opts.fnflags ≠ 0 then []
  else
    match globJoin dir name with
    | none => []
    | some joined =>
        ⟨.joined, joined⟩ ::
          if last = false ∨ (opts.trailingSlash || opts.onlydir) = false ∨ globIsDir fs joined then
            ⟨.final, joined⟩ ::
              if (last ∧ opts.markdirs ∧ globIsDir fs joined) ∧ joined.length + 2 ≤ bufferSize then
                [⟨.final, joined ++ [chr '/']⟩]
              else []
          else []

/-- The writes for a component without metacharacters below a directory. -/
def literalWrites (last : Bool) (lit dir : CString) : List PathWrite :=
  match globJoin dir lit with
  | none => []
  | some joined =>
      ⟨.joined, joined⟩ ::
        if last = false then []
        else
          match fs.lstat joined with
          | none => []
          | some kind =>
              if (opts.trailingSlash || opts.onlydir) ∧ kind ≠ .directory then []
              else if opts.markdirs ∧ kind = .directory then
                if bufferSize < joined.length + 2 then [] else [⟨.joined, joined ++ [chr '/']⟩]
              else []

def expandDirectoryW (last : Bool) (comp : CString) (next : GlobVec) (dir : CString) : GlobW GlobVec :=
  match fs.opendir (if dir = [] then [chr '.'] else dir) with
  | none => pure next
  | some names =>
      names.foldlM (fun next name => after (wildcardWrites fs opts last comp dir name)
        (pushPath succeeds next (wildcardPath fs opts last comp dir name))) next

def expandWildcardW (last : Bool) (comp : CString) (cur : GlobVec) : GlobW GlobVec :=
  cur.v.foldlM (expandDirectoryW fs succeeds opts last comp) .empty

def expandLiteralW (last : Bool) (comp : CString) (cur : GlobVec) : GlobW GlobVec := do
  let lit ← globUnescapeToW opts.noescape comp
  cur.v.foldlM (fun next dir => after (literalWrites fs opts last lit dir)
    (pushPath succeeds next (literalPath fs opts last lit dir))) .empty

def expandLevelW (last : Bool) (comp : CString) (cur : GlobVec) : GlobW GlobVec :=
  if globHasMeta opts.noescape comp then expandWildcardW fs succeeds opts last comp cur
  else expandLiteralW fs succeeds opts last comp cur

def expandComponentsW : List CString → GlobVec → GlobW GlobVec
  | [], cur => pure cur
  | comp :: rest, cur =>
      if comp = [] then expandComponentsW rest cur
      else do
        let next ← expandLevelW fs succeeds opts (rest = []) comp cur
        if next.v = [] then pure next else expandComponentsW rest next

def globMatchesW (pattern : CString) (out : GlobVec) : GlobW GlobVec :=
  if globHasMeta opts.noescape pattern = false then do
    let lit ← globUnescapeToW opts.noescape pattern
    quiet (globVecPush succeeds out lit)
  else if bufferSize ≤ pattern.length then pure out
  else do
    let cur ← after [⟨.buf, pattern⟩]
      (globVecPush succeeds .empty (if pattern.head? = some (chr '/') then [chr '/'] else []))
    let cur ← expandComponentsW fs succeeds opts (splitComponents opts.noescape pattern) cur
    quiet (cur.v.foldlM (globVecPush succeeds) out)

/-- The part of `glob` up to the label `done`. -/
def globCollectW (pattern : CString) (flags : BitVec 32) (pglob : GlobT) : GlobW GlobVec := do
  let out ← quiet ((if hasFlag flags GLOB_APPEND then pglob.paths else []).foldlM (globVecPush succeeds) .empty)
  globMatchesW fs succeeds (globOptions pattern flags) pattern out

/-- The writes from the label `done` on, when memory has not run out before. -/
def globFinishWrites (pattern : CString) (flags : BitVec 32) (out : GlobVec) : List PathWrite :=
  if out.v = [] ∧ hasFlag flags GLOB_NOCHECK then [⟨.lit, globUnescape (hasFlag flags GLOB_NOESCAPE) pattern⟩]
  else []

/-- Everything that a call of `glob` writes into its path arrays, up to the first string that does not fit. -/
def globWrites (pattern : CString) (flags : BitVec 32) (pglob : GlobT) : List PathWrite :=
  (globCollectW fs succeeds pattern flags pglob).log 0 ++
    match (globCollectW fs succeeds pattern flags pglob).program.run 0 with
    | .ok (out, _) => globFinishWrites pattern flags out
    | .error _ => []

end CLite
