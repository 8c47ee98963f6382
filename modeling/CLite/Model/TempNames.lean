import CLite.Model.CString

/-! # Names of temporary files

`mktemp_replace`, `mkstemp`, `mkdtemp` and `mktemp` of `compat.c`. The counter is passed along explicitly, and `open`
and `mkdir` are given by what they answer to a path.
-/

namespace CLite

def EINVAL : ℤ := 22
def O_RDWR : ℕ := 0x0002
def O_CREAT : ℕ := 0x0040
def O_EXCL : ℕ := 0x0080

/-- `chars` of `mktemp_replace`. -/
def tempChars : CString := cstr "ABCDEFGHIJKLMNOPQRSTUVWXYZabcdefghijklmnopqrstuvwxyz0123456789"

/-- The loop that writes the characters `xs[0]` to `xs[n - 1]`, from the last one on. -/
def tempDigits : ℕ → ℕ → CString
  | 0, _ => []
  | n + 1, v => tempDigits n (v / 62) ++ [tempChars.getD (v % 62) (chr 'A')]

/-- `mktemp_replace`: the counter and the text of the template afterwards. -/
def mktempReplace (getpid : ℤ) (mktempCounter : BitVec 32) (t : CString) : BitVec 32 × CString :=
  if t.length < 6 then (mktempCounter, t)
  else
    let xs := t.drop (t.length - 6)
    if xs.all (· = chr 'X') then
      let v := BitVec.ofInt 32 getpid * 2654435761#32 + mktempCounter
      (mktempCounter + 1, t.take (t.length - 6) ++ tempDigits 6 v.toNat)
    else (mktempCounter, t)

/-- What a call leaves: the counter, the text of the template, the `errno` it sets itself, and its result. -/
structure TempOutcome (α : Type) where
  mktempCounter : BitVec 32
  template : Option CString
  errno : Option ℤ
  result : α

/-- `mkstemp`; a null pointer is `none`. -/
def mkstemp (getpid : ℤ) (openFile : CString → ℕ → ℕ → ℤ) (mktempCounter : BitVec 32) :
    Option CString → TempOutcome ℤ
  | none => ⟨mktempCounter, none, some EINVAL, -1⟩
  | some template =>
    let (mktempCounter, template) := mktempReplace getpid mktempCounter template
    ⟨mktempCounter, some template, none, openFile template (O_RDWR ||| O_CREAT ||| O_EXCL) 0o600⟩

/-- `mkdtemp`, with the returned string. -/
def mkdtemp (getpid : ℤ) (mkdir : CString → ℕ → ℤ) (mktempCounter : BitVec 32) :
    Option CString → TempOutcome (Option CString)
  | none => ⟨mktempCounter, none, some EINVAL, none⟩
  | some [] => ⟨mktempCounter, some [], some EINVAL, none⟩
  | some (x :: s) =>
    let (mktempCounter, template) := mktempReplace getpid mktempCounter (x :: s)
    ⟨mktempCounter, some template, none, if mkdir template 0o700 ≠ 0 then none else some template⟩

/-- `mktemp`, with the returned string. -/
def mktemp (getpid : ℤ) (mktempCounter : BitVec 32) : Option CString → TempOutcome (Option CString)
  | none => ⟨mktempCounter, none, none, none⟩
  | some template =>
    let (mktempCounter, template) := mktempReplace getpid mktempCounter template
    ⟨mktempCounter, some template, none, some template⟩

/-- A call of one of the three functions, with what the system answers to it. -/
inductive TempCall where
  | mkstemp (openFile : CString → ℕ → ℕ → ℤ) (template : Option CString)
  | mkdtemp (mkdir : CString → ℕ → ℤ) (template : Option CString)
  | mktemp (template : Option CString)

namespace TempCall

/-- The counter and the text of the template after the call. -/
def perform (getpid : ℤ) (mktempCounter : BitVec 32) : TempCall → BitVec 32 × Option CString
  | mkstemp openFile template =>
    let outcome := CLite.mkstemp getpid openFile mktempCounter template
    (outcome.mktempCounter, outcome.template)
  | mkdtemp mkdir template =>
    let outcome := CLite.mkdtemp getpid mkdir mktempCounter template
    (outcome.mktempCounter, outcome.template)
  | mktemp template =>
    let outcome := CLite.mktemp getpid mktempCounter template
    (outcome.mktempCounter, outcome.template)

/-- The template on which the call runs `mktemp_replace`, if it does. -/
def replaced : TempCall → Option CString
  | mkstemp _ template => template
  | mkdtemp _ template => template.filter (· ≠ [])
  | mktemp template => template

end TempCall

/-- The calls of `mktemp_replace` in a run of a process: each template with what is left in it. -/
def replacements (getpid : ℤ) (mktempCounter : BitVec 32) : List TempCall → List (CString × Option CString)
  | [] => []
  | call :: calls =>
    let (next, text) := call.perform getpid mktempCounter
    (call.replaced.map fun template => (template, text)).toList ++ replacements getpid next calls

end CLite
