import CLite.Model.CString

/-! # Command line options

`getopt` of `getopt.c`. The position in the command line is kept between calls in `optind` and `optpos`.
The argument vector has `argc` strings.
-/

namespace CLite

/-- The variables that `getopt` keeps between calls. -/
structure OptState where
  optind : ℤ
  optpos : ℕ
  optarg : Option CString
  optopt : ℤ

namespace OptState

/-- Go on with the next word. -/
def nextWord (st : OptState) (words : ℤ) : OptState := { st with optind := st.optind + words, optpos := 1 }

/-- Go on behind the character at `optpos`, of which `rest` is left in the word. -/
def advance (st : OptState) (rest : CString) : OptState :=
  if rest = [] then st.nextWord 1 else { st with optpos := st.optpos + 1 }

end OptState

/-- The option `c` of the word with `rest` behind it; `p` is what follows `c` in the option string. -/
def takeOption (argv : List CString) (optstring : CString) (st : OptState) (c : CChar) (rest p : CString) :
    ℤ × OptState :=
  if p.head? = some (chr ':') then
    if rest ≠ [] then (c.plain, { st.nextWord 1 with optarg := some rest })
    else
      match argv[(st.optind + 1).toNat]? with
      | some word => (c.plain, { st.nextWord 2 with optarg := some word })
      | none =>
        (if optstring.head? = some (chr ':') then (chr ':').plain else (chr '?').plain,
          { st.nextWord 1 with optopt := c.plain })
  else (c.plain, { st with optarg := none }.advance rest)

/-- The returned value and the variables; `none` if `optpos` is not inside the word. -/
def getopt (argv : List CString) (optstring : CString) (st : OptState) : Option (ℤ × OptState) :=
  let st := if st.optind ≤ 0 then { st with optind := 1, optpos := 1 } else st
  match argv[st.optind.toNat]? with
  | none => some (-1, st)
  | some word =>
    if word.head? ≠ some (chr '-') ∨ word.tail = [] then some (-1, st)
    else if word = [chr '-', chr '-'] then some (-1, { st with optind := st.optind + 1 })
    else
      match word.drop st.optpos with
      | [] => none
      | c :: rest =>
        match optstring.dropWhile (· ≠ c) with
        | [] => some ((chr '?').plain, { st with optopt := c.plain }.advance rest)
        | _ :: p =>
          if c = chr ':' then some ((chr '?').plain, { st with optopt := c.plain }.advance rest)
          else some (takeOption argv optstring st c rest p)

/-- Successive calls: what each returns and stores in `optarg`, and the variables after the last one. -/
def getopts (argv : List CString) (optstring : CString) :
    ℕ → OptState → Option (List (ℤ × Option CString) × OptState)
  | 0, st => some ([], st)
  | calls + 1, st => do
    let (c, st) ← getopt argv optstring st
    let (later, last) ← getopts argv optstring calls st
    return ((c, st.optarg) :: later, last)

end CLite
