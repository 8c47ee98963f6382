import CLite.Lib.ByteMemory
import CLite.Model.CString

/-! # Tokens

`strchr`, `strspn`, `strcspn`, `strpbrk`, `strsep` and `strtok` of `string.c` and `strtok_r` of `compat.c`, with
valid pointers. The string that is cut lies in a buffer of its own, apart from the delimiters, and a pointer into it
is an offset. The bytes at a pointer reach to the end of the buffer, behind the terminator of the string.
-/

namespace CLite

open ByteMemory

def strchr : CString → Byte → Option CString
  | [], c => if c = 0 then some [] else none
  | x :: s, c => if x.byte = c then some (x :: s) else strchr s c

/-- The loop of `strspn` and `strcspn`, which differ in the test of a character. -/
def countWhile (test : Byte → Bool) : List Byte → ℕ
  | [] => 0
  | x :: s => if x ≠ 0 ∧ test x then countWhile test s + 1 else 0

def strspn (s : List Byte) (accept : CString) : ℕ := countWhile (fun x => (strchr accept x).isSome) s

def strcspn (s : List Byte) (reject : CString) : ℕ := countWhile (fun x => (strchr reject x).isNone) s

/-- The distance of the found character. -/
def strpbrk (accept : CString) : List Byte → Option ℕ
  | [] => none
  | x :: s =>
    if x = 0 then none else if (strchr accept x).isSome then some 0 else (strpbrk accept s).map (· + 1)

/-- The buffer and the pointer that is kept between the calls; `none` is a null pointer. -/
structure TokenState where
  buf : List Byte
  saved : Option ℕ

/-- The returned pointer and the state after `strsep(&saved, delim)`. -/
def strsep (st : TokenState) (delim : CString) : Option ℕ × TokenState :=
  match st.saved with
  | none => (none, st)
  | some start =>
    match strpbrk delim (st.buf.drop start) with
    | some distance => (some start, ⟨st.buf.set (start + distance) 0, some (start + distance + 1)⟩)
    | none => (some start, ⟨st.buf, none⟩)

/-- `if (str) saved = str`. -/
def TokenState.restart (st : TokenState) (str : Option ℕ) : TokenState :=
  if str.isSome then { st with saved := str } else st

def strtok (st : TokenState) (str : Option ℕ) (delim : CString) : Option ℕ × TokenState :=
  strsep (st.restart str) delim

def strtok_r (st : TokenState) (str : Option ℕ) (delim : CString) : Option ℕ × TokenState :=
  let st := st.restart str
  match st.saved with
  | none => (none, st)
  | some saveptr =>
    let s := saveptr + strspn (st.buf.drop saveptr) delim
    if st.buf.getD s 0 = 0 then (none, ⟨st.buf, none⟩)
    else
      let «end» := s + strcspn (st.buf.drop s) delim
      if st.buf.getD «end» 0 ≠ 0 then (some s, ⟨st.buf.set «end» 0, some («end» + 1)⟩)
      else (some s, ⟨st.buf, none⟩)

/-- The string at a pointer. -/
def stringAt (buf : List Byte) (p : ℕ) : List Byte := (buf.drop p).takeWhile (· ≠ 0)

/-- The strings that successive calls return, the first one with `str` and the others with a null pointer. -/
def tokenCalls (call : TokenState → Option ℕ → CString → Option ℕ × TokenState) :
    TokenState → Option ℕ → List CString → List (Option (List Byte))
  | _, _, [] => []
  | st, str, delim :: delims =>
    let (token, next) := call st str delim
    token.map (stringAt next.buf) :: tokenCalls call next none delims

/-- The strings that successive calls of `strsep` return. -/
def strsepCalls (st : TokenState) (delims : List CString) : List (Option (List Byte)) :=
  tokenCalls (fun st _ delim => strsep st delim) st none delims

end CLite
