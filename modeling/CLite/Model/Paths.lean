import CLite.Model.Exec

/-! # Path names

`realpath`, `dirname` and `basename` of `compat.c` and `strrchr` of `string.c`, with valid pointers. `realpath` copies
its result to the given array or to a new block, which is not told apart here. An array of 1024 bytes holds a string
of 1023 characters.
-/

namespace CLite

def ENAMETOOLONG : ℤ := 63

/-- The returned string, or a null pointer and the `errno` that is set. -/
inductive PathResult where
  | resolved (path : CString)
  | failed (errno : ℤ)
deriving DecidableEq

/-- The loop of `realpath` from a position of `tmp` on; `oi` characters are in `out` already. -/
def collapseLoop (oi : ℕ) : CString → CString
  | [] => []
  | [x] => if oi + 1 < 1024 then [x] else []
  | x :: y :: s =>
    if oi + 1 < 1024 then
      if x = chr '/' ∧ y = chr '/' then collapseLoop oi (y :: s)
      else if x = chr '/' ∧ y = chr '.' ∧ (s.head? = some (chr '/') ∨ s = []) then collapseLoop oi s
      else x :: collapseLoop (oi + 1) (y :: s)
    else []

/-- The part of `realpath` behind the two ways to fill `tmp`. -/
def collapse (tmp : CString) : CString :=
  let out := collapseLoop 0 tmp
  if out = [] then [chr '/'] else out

/-- `realpath` with what `getcwd` gives; one that fails has set `errno`. -/
def realpath (getcwd : Option CString) (path : CString) : PathResult :=
  if path.head? = some (chr '/') then .resolved (collapse (path.take 1023))
  else
    match getcwd with
    | none => .failed ENOENT
    | some cwd =>
      if 1024 < cwd.length + 1 + path.length + 1 then .failed ENAMETOOLONG
      else .resolved (collapse (cwd ++ chr '/' :: path))

/-- The loop of `strrchr` at the offset `i`, for a character that is not the terminator. -/
def strrchrLoop (c : CChar) (i : ℕ) (last : Option ℕ) : CString → Option ℕ
  | [] => last
  | x :: s => strrchrLoop c (i + 1) (if x = c then some i else last) s

/-- The offset of the last occurrence. -/
def strrchr (s : CString) (c : CChar) : Option ℕ := strrchrLoop c 0 none s

/-- The loop over trailing slashes: the length that is left. -/
def stripLoop (path : CString) : ℕ → ℕ
  | 0 => 0
  | len + 1 => if 1 < len + 1 ∧ path[len]? = some (chr '/') then stripLoop path len else len + 1

def dirname (path : CString) : CString :=
  if path = [] then [chr '.']
  else
    let len := if 1024 ≤ path.length then 1023 else path.length
    let buf := path.take len
    let buf := buf.take (stripLoop buf len)
    match strrchr buf (chr '/') with
    | none => [chr '.']
    | some last => if last = 0 then [chr '/'] else buf.take last

/-- The loop of `basename` back to the character behind a slash. -/
def startLoop (path : CString) : ℕ → ℕ
  | 0 => 0
  | start + 1 => if path[start]? ≠ some (chr '/') then startLoop path start else start + 1

def basename (path : CString) : CString :=
  if path = [] then [chr '.']
  else
    let len := stripLoop path path.length
    let start := startLoop path len
    let n := len - start
    if n = 0 then [chr '/'] else (path.drop start).take (if 1024 ≤ n then 1023 else n)

end CLite
