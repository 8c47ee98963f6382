import CLite.Model.Printf

/-! # Numbers from text and formatted input

`strtol` of `stdlib.c` and `vsscanf` of `compat.c`. A `long` has 32 bits and its arithmetic wraps. What
`vsscanf` stores is the list of stores through its pointer arguments, in their order.
-/

namespace CLite

def isSpace (x : CChar) : Bool :=
  x = chr ' ' ∨ x = chr '\t' ∨ x = chr '\n' ∨ x = chr '\r' ∨ x = chr '\x0c' ∨ x = chr '\x0b'

/-- The value of a digit or a letter; other characters end a number. -/
def digitValue (x : CChar) : Option ℤ :=
  if 48 ≤ x.plain ∧ x.plain ≤ 57 then some (x.plain - 48)
  else if 97 ≤ x.plain ∧ x.plain ≤ 122 then some (x.plain - 97 + 10)
  else if 65 ≤ x.plain ∧ x.plain ≤ 90 then some (x.plain - 65 + 10)
  else none

def strtolLoop (base val : ℤ) : CString → ℤ × CString
  | [] => (val, [])
  | x :: s =>
    match digitValue x with
    | none => (val, x :: s)
    | some digit => if base ≤ digit then (val, x :: s) else strtolLoop base (int32 (val * base + digit)) s

/-- An optional sign: whether it is a minus, and what follows. -/
def takeSign : CString → Bool × CString
  | [] => (false, [])
  | x :: s => if x = chr '-' then (true, s) else if x = chr '+' then (false, s) else (false, x :: s)

def hasHexPrefix (s : CString) : Bool :=
  s.head? = some (chr '0') ∧ (s.tail.head? = some (chr 'x') ∨ s.tail.head? = some (chr 'X'))

/-- The value and `*endptr`, which is `nptr` when there is no digit. -/
def strtol (nptr : CString) (base : ℤ) : ℤ × CString :=
  let (negative, s) := takeSign (nptr.dropWhile isSpace)
  let (base, s) := if (base = 0 ∨ base = 16) ∧ hasHexPrefix s then (16, s.drop 2) else (base, s)
  let base := if base = 0 then if s.head? = some (chr '0') then 8 else 10 else base
  let (val, rest) := strtolLoop base 0 s
  (if negative then int32 (-val) else val, if rest.length = s.length then nptr else rest)

/-- `atol` of `stdlib.c`. -/
def atol (nptr : CString) : ℤ := (strtol nptr 10).1

/-- The value of `strtol` converted to `unsigned long`. -/
def strtoul (nptr : CString) (base : ℤ) : ℤ × CString := ((strtol nptr base).1 % 2 ^ 32, (strtol nptr base).2)

/-- The value of `strtol` as a `long long`. -/
def strtoll (nptr : CString) (base : ℤ) : ℤ × CString := strtol nptr base

/-- The value of `strtoul` as an `unsigned long long`. -/
def strtoull (nptr : CString) (base : ℤ) : ℤ × CString := strtoul nptr base

/-- A store through a pointer argument. -/
inductive Store where
  | int (value : BitVec 32)
  | long (value : BitVec 32)
  | longLong (value : BitVec 64)
  | short (value : BitVec 16)
  | char (value : BitVec 8)
  | characters (text : CString)
  | string (text : CString)
deriving DecidableEq

/-- The loop variables of `vsscanf`; the format is apart. -/
structure Scanning where
  s : CString
  matched : ℕ
  stores : List Store

/-- What a round of the loop does: leave it, go on with the rest of the format, or read past the format. -/
inductive ScanRound where
  | leave (state : Scanning)
  | next (format : CString) (state : Scanning)
  | undefined

/-- The length modifier as `is_long`. -/
def scanLength (f : CString) : ℤ × CString :=
  match f with
  | [] => (0, [])
  | x :: rest =>
    if x = chr 'l' then if rest.head? = some (chr 'l') then (2, rest.tail) else (1, rest)
    else if x = chr 'h' then if rest.head? = some (chr 'h') then (-2, rest.tail) else (-1, rest)
    else (0, x :: rest)

def storeInteger (isLong val : ℤ) : Store :=
  if isLong = 2 then .longLong (BitVec.ofInt 64 val)
  else if isLong = 1 then .long (BitVec.ofInt 32 val)
  else if isLong = -1 then .short (BitVec.ofInt 16 val)
  else if isLong = -2 then .char (BitVec.ofInt 8 val)
  else .int (BitVec.ofInt 32 val)

/-- The number of characters that `%s` takes. -/
def wordLength (s : CString) (width : ℤ) : ℕ :=
  let word := s.takeWhile fun x => !isSpace x
  if width = 0 then word.length else min word.length width.toNat

namespace Scanning

/-- Take `count` characters, with a store unless it is suppressed. -/
def take (state : Scanning) (count : ℕ) (suppress : Bool) (store : CString → Store) : Scanning where
  s := state.s.drop count
  matched := state.matched + 1
  stores := if suppress then state.stores else state.stores ++ [store (state.s.take count)]

/-- The integer conversions, at a string that is not empty. -/
def integer (state : Scanning) (base isLong : ℤ) (suppress : Bool) (f : CString) : ScanRound :=
  let (val, rest) := strtol state.s base
  if rest.length = state.s.length then .leave state
  else .next f ⟨rest, state.matched + 1,
    if suppress then state.stores else state.stores ++ [storeInteger isLong val]⟩

/-- The conversions that skip blanks first. The character after the terminator is undefined, and an
unknown conversion only skips blanks. -/
def afterBlanks (state : Scanning) (conv : Option CChar) (width isLong : ℤ) (suppress : Bool) (f : CString) :
    ScanRound :=
  let state := { state with s := state.s.dropWhile isSpace }
  if state.s = [] then .leave state
  else
    match conv with
    | none => .undefined
    | some conv =>
      if conv = chr 's' then .next f (state.take (wordLength state.s width) suppress .string)
      else if conv = chr 'x' ∨ conv = chr 'X' then state.integer 16 isLong suppress f
      else if conv = chr 'i' then state.integer 0 isLong suppress f
      else if conv = chr 'd' ∨ conv = chr 'u' then state.integer 10 isLong suppress f
      else .next f state

/-- The dispatch on the conversion character. -/
def conversion (str : CString) (state : Scanning) (conv : Option CChar) (width isLong : ℤ) (suppress : Bool)
    (f : CString) : ScanRound :=
  if conv = some (chr 'n') then
    .next f { state with
      stores := if suppress then state.stores
        else state.stores ++ [.int (BitVec.ofNat 32 (str.length - state.s.length))] }
  else if conv = some (chr 'c') then
    if state.s = [] then .leave state
    else .next f (state.take (if 0 < width then width.toNat else 1) suppress .characters)
  else state.afterBlanks conv width isLong suppress f

/-- A directive, from behind its percent sign and the suppressing star. -/
def directive (str : CString) (state : Scanning) (suppress : Bool) (f : CString) : ScanRound :=
  let (width, f) := numberLoop 0 f
  let (isLong, f) := scanLength f
  state.conversion str f.head? width isLong suppress f.tail

/-- A literal character of the format. -/
def literal (state : Scanning) (x : CChar) (f : CString) : ScanRound :=
  if state.s.head? = some x then .next f { state with s := state.s.tail } else .leave state

end Scanning

/-- One round of the main loop at the character `x` of the format. -/
def scanRound (str : CString) (x : CChar) (f : CString) (state : Scanning) : ScanRound :=
  if isSpace x then .next (f.dropWhile isSpace) { state with s := state.s.dropWhile isSpace }
  else if x ≠ chr '%' then state.literal x f
  else if f.head? = some (chr '%') then state.literal (chr '%') f.tail
  else if f.head? = some (chr '*') then state.directive str true f.tail
  else state.directive str false f

theorem scanLength_length (f : CString) : (scanLength f).2.length ≤ f.length := by
  unfold scanLength
  split
  · exact le_refl _
  · next x rest =>
    have tail : rest.tail.length ≤ rest.length := by
      rw [List.length_tail]
      omega
    rw [List.length_cons]
    split_ifs <;> dsimp only [List.length_cons] <;> omega

theorem Scanning.integer_next {state state' : Scanning} {base isLong : ℤ} {suppress : Bool} {f f' : CString}
    (next : state.integer base isLong suppress f = .next f' state') : f' = f := by
  simp only [Scanning.integer] at next
  split at next
  · cases next
  · cases next
    rfl

theorem Scanning.afterBlanks_next {state state' : Scanning} {conv : Option CChar} {width isLong : ℤ}
    {suppress : Bool} {f f' : CString}
    (next : state.afterBlanks conv width isLong suppress f = .next f' state') : f' = f := by
  simp only [Scanning.afterBlanks] at next
  split at next
  · cases next
  · split at next
    · cases next
    · split_ifs at next
      · cases next
        rfl
      · exact Scanning.integer_next next
      · exact Scanning.integer_next next
      · exact Scanning.integer_next next
      · cases next
        rfl

theorem Scanning.literal_next {state state' : Scanning} {x : CChar} {f f' : CString}
    (next : state.literal x f = .next f' state') : f' = f := by
  unfold Scanning.literal at next
  split at next
  · cases next
    rfl
  · cases next

theorem Scanning.conversion_next {str : CString} {state state' : Scanning} {conv : Option CChar}
    {width isLong : ℤ} {suppress : Bool} {f f' : CString}
    (next : state.conversion str conv width isLong suppress f = .next f' state') : f' = f := by
  unfold Scanning.conversion at next
  split at next
  · cases next
    rfl
  · split at next
    · split at next
      · cases next
      · cases next
        rfl
    · exact Scanning.afterBlanks_next next

theorem Scanning.directive_next {str : CString} {state state' : Scanning} {suppress : Bool} {f f' : CString}
    (next : state.directive str suppress f = .next f' state') : f'.length ≤ f.length := by
  have number := numberLoop_length 0 f
  have modifier := scanLength_length (numberLoop 0 f).2
  have rest : f' = (scanLength (numberLoop 0 f).2).2.tail := Scanning.conversion_next next
  rw [rest, List.length_tail]
  omega

/-- A round never moves back in the format. -/
theorem scanRound_next {str : CString} {x : CChar} {f f' : CString} {state state' : Scanning}
    (next : scanRound str x f state = .next f' state') : f'.length ≤ f.length := by
  unfold scanRound at next
  split_ifs at next
  · cases next
    exact (List.dropWhile_suffix _).length_le
  · rw [Scanning.literal_next next]
  · rw [Scanning.literal_next next, List.length_tail]
    omega
  · have shorter := Scanning.directive_next next
    rw [List.length_tail] at shorter
    omega
  · exact Scanning.directive_next next

/-- The main loop, `while (*f)`. -/
def scanLoop (str : CString) (f : CString) (state : Scanning) : Option Scanning :=
  match f with
  | [] => some state
  | x :: f =>
    match _ : scanRound str x f state with
    | .leave state => some state
    | .undefined => none
    | .next f state => scanLoop str f state
termination_by f.length
decreasing_by exact Nat.lt_succ_of_le (scanRound_next ‹_›)

/-- The returned value and the stores. -/
def vsscanf (str format : CString) : Option (ℕ × List Store) :=
  (scanLoop str format ⟨str, 0, []⟩).map fun state => (state.matched, state.stores)

end CLite
