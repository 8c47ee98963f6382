import CLite.Model.Glob
import CLite.Model.Lifetimes

/-! # The memory of `glob`

`glob` and `globfree` with the blocks that they take and give back. Each string of a vector is in a block of its own,
and so is the array of the pointers. A push that fails may have made the array larger before.
-/

namespace CLite

open Ownership

/-- A string that `strdup` has made: its text and its block. -/
structure OwnedString where
  text : CString
  block : ℕ

/-- The array of a `glob_vec`: its block, the strings in it and the number of pointers it has room for. -/
structure OwnedArray where
  v : ℕ
  strings : List OwnedString
  cap : ℕ

/-- A `glob_vec`; without an array it has no strings and no capacity. -/
abbrev OwnedVec := Option OwnedArray

/-- The strings that are in use. -/
def OwnedVec.strings : OwnedVec → List OwnedString
  | none => []
  | some array => array.strings

def OwnedVec.texts (sv : OwnedVec) : List CString := sv.strings.map OwnedString.text

/-- `glob_vec_free`. -/
def globVecFreeOwned : OwnedVec → Program Resource Unit
  | none => pure ()
  | some array => do
    releaseAll (array.strings.map fun s => Resource.block s.block)
    release (.block array.v)

variable (system : ResourceSystem)

/-- The part of `glob_vec_push` that makes room for one more pointer. -/
def globVecGrowOwned : OwnedVec → Program Resource (Option OwnedArray)
  | none => do
    match ← acquire system.malloc with
    | none => pure none
    | some v => pure (some ⟨v, [], 16⟩)
  | some array =>
    if array.cap < array.strings.length + 1 then do
      match ← exchange system.malloc array.v with
      | none => pure none
      | some v => pure (some { array with v, cap := if array.cap = 0 then 16 else array.cap * 2 })
    else pure (some array)

/-- Whether the string was pushed, and the vector afterwards. -/
def globVecPushOwned (sv : OwnedVec) (s : CString) : Program Resource (Bool × OwnedVec) :=
  if GLOB_MAX_MATCHES ≤ sv.strings.length then pure (false, sv)
  else do
    match ← globVecGrowOwned system sv with
    | none => pure (false, sv)
    | some array => do
      match ← acquire system.malloc with
      | none => pure (false, some array)
      | some c => pure (true, some { array with strings := array.strings ++ [⟨s, c⟩] })

/-- Push a path unless the loop body skipped it. -/
def pushPathOwned (sv : OwnedVec) : Option CString → Program Resource (Bool × OwnedVec)
  | none => pure (true, sv)
  | some path => globVecPushOwned system sv path

/-- A loop that ends early when its body fails. -/
def whileOk {α : Type} (body : OwnedVec → α → Program Resource (Bool × OwnedVec)) :
    List α → OwnedVec → Program Resource (Bool × OwnedVec)
  | [], sv => pure (true, sv)
  | item :: rest, sv => do
    let (ok, sv) ← body sv item
    if ok then whileOk body rest sv else pure (false, sv)

variable (fs : FileSystem) (opts : GlobOptions)

/-- A directory and the names that `readdir` yields for it, none of them if there was no memory for the buffer. -/
def opendirNames (name : CString) : Program Resource (Option (DirHandle × List CString)) :=
  match fs.opendir name with
  | none => pure none
  | some names => do
    match ← opendirOwned system with
    | none => pure none
    | some dirp => pure (some (dirp, if dirp.buf.isSome then names else []))

def expandDirectoryOwned (last : Bool) (comp : CString) (next : OwnedVec) (dir : CString) :
    Program Resource (Bool × OwnedVec) := do
  match ← opendirNames system fs (if dir = [] then [chr '.'] else dir) with
  | none => pure (true, next)
  | some (dp, names) => do
    let result ← whileOk (fun next name => pushPathOwned system next (wildcardPath fs opts last comp dir name))
      names next
    closedirOwned dp
    pure result

/-- `glob_unescape_to`, which faults when the array is overrun. -/
def unescapeOwned (noescape : Bool) (src : CString) : Program Resource CString :=
  if (globUnescape noescape src).length < bufferSize then pure (globUnescape noescape src) else failure

def expandLevelOwned (last : Bool) (comp : CString) (cur : OwnedVec) : Program Resource (Bool × OwnedVec) :=
  if globHasMeta opts.noescape comp then
    whileOk (expandDirectoryOwned system fs opts last comp) cur.texts none
  else do
    let lit ← unescapeOwned opts.noescape comp
    whileOk (fun next dir => pushPathOwned system next (literalPath fs opts last lit dir)) cur.texts none

/-- The loop over the components. The vector of a level is freed when the next one is complete or cannot be. -/
def expandComponentsOwned : List CString → OwnedVec → Program Resource (Bool × OwnedVec)
  | [], cur => pure (true, cur)
  | comp :: rest, cur =>
    if comp = [] then expandComponentsOwned rest cur
    else do
      let (ok, next) ← expandLevelOwned system fs opts (rest = []) comp cur
      globVecFreeOwned cur
      if next.strings = [] ∨ ok = false then pure (ok, next) else expandComponentsOwned rest next

/-- The loop that copies the last level behind what is in `out`; it is not entered after a failure. -/
def deliverOwned (ok : Bool) (cur out : OwnedVec) : Program Resource (Bool × OwnedVec) :=
  if ok then whileOk (globVecPushOwned system) cur.texts out else pure (false, out)

/-- The results for the pattern, pushed behind those already in `out`. If the starting point cannot be pushed, its
vector is not freed. -/
def globMatchesOwned (pattern : CString) (out : OwnedVec) : Program Resource (Bool × OwnedVec) :=
  if globHasMeta opts.noescape pattern = false then do
    let lit ← unescapeOwned opts.noescape pattern
    globVecPushOwned system out lit
  else if bufferSize ≤ pattern.length then pure (true, out)
  else do
    let (ok, cur) ← globVecPushOwned system none (if pattern.head? = some (chr '/') then [chr '/'] else [])
    if ok then do
      let (ok, cur) ← expandComponentsOwned system fs opts (splitComponents opts.noescape pattern) cur
      let result ← deliverOwned system ok cur out
      globVecFreeOwned cur
      pure result
    else pure (false, out)

/-! ## `glob` and `globfree` -/

/-- `glob_t`: the array `gl_pathv` is in a block, and its pointers may be null. -/
structure OwnedGlob where
  pathc : ℕ
  pathv : Option (ℕ × List (Option OwnedString))
  offs : ℕ

/-- The strings among the first `gl_pathc` pointers. -/
def OwnedGlob.strings (pglob : OwnedGlob) : List OwnedString :=
  match pglob.pathv with
  | none => []
  | some (_, pointers) => (pointers.take pglob.pathc).filterMap id

/-- The part of `glob` up to the label `done`; whether memory sufficed, and the vector `out`. -/
def globCollectOwned (pattern : CString) (flags : BitVec 32) (pglob : OwnedGlob) :
    Program Resource (Bool × OwnedVec) := do
  let (ok, out) ← whileOk (globVecPushOwned system)
    (if hasFlag flags GLOB_APPEND then pglob.strings.map OwnedString.text else []) none
  if ok then globMatchesOwned system fs (globOptions pattern flags) pattern out else pure (false, out)

/-- The part of `glob` from the label `done` when nothing was found. -/
def globNothingOwned (pattern : CString) (flags : BitVec 32) (pglob : OwnedGlob) :
    Program Resource (ℕ × OwnedGlob) :=
  if hasFlag flags GLOB_NOCHECK then do
    let lit ← unescapeOwned (hasFlag flags GLOB_NOESCAPE) pattern
    match ← acquire system.malloc with
    | none => pure (GLOB_NOSPACE, { pglob with pathv := none })
    | some v => do
      match ← acquire system.malloc with
      | none => do
        release (.block v)
        pure (GLOB_NOSPACE, { pglob with pathv := none })
      | some c => pure (0, ⟨1, some (v, [some ⟨lit, c⟩, none]), 0⟩)
  else pure (GLOB_NOMATCH, ⟨0, none, 0⟩)

/-- The array of `out` is given up, its strings move to the caller. -/
def globHandOver (pglob : OwnedGlob) (out : OwnedArray) : Program Resource (ℕ × OwnedGlob) := do
  match ← acquire system.malloc with
  | none => do
    globVecFreeOwned (some out)
    pure (GLOB_NOSPACE, { pglob with pathc := 0, pathv := none })
  | some v => do
    release (.block out.v)
    pure (0, ⟨out.strings.length, some (v, out.strings.map some ++ [none]), 0⟩)

/-- `glob`: the return code and the `glob_t` afterwards. -/
def globOwned (pattern : CString) (flags : BitVec 32) (pglob : OwnedGlob) : Program Resource (ℕ × OwnedGlob) := do
  let (ok, out) ← globCollectOwned system fs pattern flags pglob
  if ok = false then
    if hasFlag flags GLOB_APPEND then pure (GLOB_NOSPACE, pglob)
    else do
      globVecFreeOwned out
      pure (GLOB_NOSPACE, { pglob with pathc := 0, pathv := none })
  else
    match out with
    | none => globNothingOwned system pattern flags pglob
    | some array =>
      if array.strings = [] then do
        globVecFreeOwned out
        globNothingOwned system pattern flags pglob
      else globHandOver system pglob array

def globfreeOwned (pglob : OwnedGlob) : Program Resource OwnedGlob :=
  match pglob.pathv with
  | none => pure pglob
  | some (v, _) => do
    releaseAll (pglob.strings.map fun s => Resource.block s.block)
    release (.block v)
    pure { pglob with pathc := 0, pathv := none }

end CLite
