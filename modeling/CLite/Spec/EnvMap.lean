import CLite.Model.Environ
import Mathlib.Logic.Function.Basic

/-! # The environment as a map

An entry is a name, an equals sign and a value. The environment stands for the map that answers each name
with the value of its entry, and the calls are updates of that map.
-/

namespace CLite

open ByteMemory

/-- A name is not empty and has no equals sign; as a string it has no terminator in it. -/
def ValidName (name : List Byte) : Prop := name ≠ [] ∧ equalsSign ∉ name ∧ 0 ∉ name

instance (name : List Byte) : Decidable (ValidName name) := inferInstanceAs (Decidable (_ ∧ _ ∧ _))

def nameOf (text : List Byte) : List Byte := text.takeWhile (· ≠ equalsSign)

def valueOf (text : List Byte) : List Byte := (text.dropWhile (· ≠ equalsSign)).tail

def Environ.entries (st : Environ) : List Pointer := st.environ.getD []

/-- The name of an entry. -/
def Environ.name (st : Environ) (entry : Pointer) : List Byte := nameOf (textAt st.objects entry)

/-- Every entry has the form `name=value`, and the names are distinct. -/
structure Environ.Valid (st : Environ) : Prop where
  form : ∀ entry ∈ st.entries, equalsSign ∈ textAt st.objects entry ∧ st.name entry ≠ []
  distinct : (st.entries.map st.name).Nodup

/-- The string that `getenv` gives for a name. -/
def Environ.answer (st : Environ) (name : List Byte) : Option (List Byte) :=
  (getenvLoop st.objects st.entries name).map (textAt st.objects)

abbrev EnvMap := List Byte → Option (List Byte)

def Environ.Agrees (st : Environ) (map : EnvMap) : Prop := ∀ name, ValidName name → st.answer name = map name

/-- The name that a call is about; `clearenv` is about all of them. -/
def EnvCall.name? (objects : Objects) : EnvCall → Option (List Byte)
  | .setenv name _ _ | .unsetenv name | .getenv name => some (textAt objects name)
  | .putenv string => some (nameOf (textAt objects string))
  | .clearenv => none

/-- A call on the map. -/
def EnvMap.apply (map : EnvMap) (objects : Objects) : EnvCall → EnvMap
  | .setenv name value overwrite =>
    if overwrite = false ∧ map (textAt objects name) ≠ none then map
    else Function.update map (textAt objects name) (some ((value.map (textAt objects)).getD []))
  | .putenv string =>
    Function.update map (nameOf (textAt objects string)) (some (valueOf (textAt objects string)))
  | .unsetenv name => Function.update map (textAt objects name) none
  | .clearenv => fun _ => none
  | .getenv _ => map

/-- A call that returns -1 leaves the map alone. -/
def EnvMap.after (map : EnvMap) (objects : Objects) (call : EnvCall) (reply : EnvReply) : EnvMap :=
  if reply = .status (-1) then map else map.apply objects call

/-- The bytes of the entry that a call makes. -/
def EnvCall.entrySize (objects : Objects) : EnvCall → ℕ
  | .setenv name value _ => (textAt objects name).length + ((value.map (textAt objects)).getD []).length + 2
  | .putenv string => (textAt objects string).length + 1
  | _ => 0

/-- The bytes of an array with one more pointer than the environment has, and the null pointer. -/
def Environ.arraySize (st : Environ) : ℕ := pointerSize * (st.entries.length + 2)

/-- The last call of `malloc`, for the entry or for the array, returned a null pointer. -/
def MallocFailed (schedule : MallocSchedule) (st next : Environ) (size : ℕ) : Prop :=
  next.mallocs = st.mallocs + 1 ∧ (schedule st.mallocs).allocate size = some false ∨
    next.mallocs = st.mallocs + 2 ∧ (schedule (st.mallocs + 1)).allocate st.arraySize = some false

/-- What a call may return: `getenv` answers from the map, and another call fails only if a `malloc` of it
does or there is no environment to remove from. -/
def ReplyCorrect (schedule : MallocSchedule) (map : EnvMap) (st next : Environ) (call : EnvCall)
    (reply : EnvReply) : Prop :=
  match call with
  | .getenv name => reply = .string (map (textAt st.objects name))
  | .unsetenv _ => reply = .status 0 ∨ reply = .status (-1) ∧ st.environ = none
  | call => reply = .status 0 ∨ reply = .status (-1) ∧ MallocFailed schedule st next (call.entrySize st.objects)

/-- One call on the environment refines the call on the map. -/
structure CallRefines (schedule : MallocSchedule) (map : EnvMap) (st : Environ) (call : EnvCall)
    (reply : EnvReply) (next : Environ) : Prop where
  valid : next.Valid
  agrees : next.Agrees (map.after st.objects call reply)
  returns : ReplyCorrect schedule map st next call reply
  unchanged : reply = .status (-1) → ∀ name, ValidName name → next.answer name = st.answer name
  others : ∀ own, call.name? st.objects = some own → ∀ name, ValidName name → name ≠ own →
    next.answer name = st.answer name

/-- Every call of a sequence returns and refines the call on the map. -/
def EnvRefines (schedule : MallocSchedule) : EnvMap → Environ → List EnvCall → Prop
  | _, _, [] => True
  | map, st, call :: calls =>
    ∃ reply next, execEnv schedule st call = some (reply, next) ∧
      CallRefines schedule map st call reply next ∧
      EnvRefines schedule (map.after st.objects call reply) next calls

/-- An array holds the entries before its first null pointer. -/
def HoldsEntries (array : List (Option Pointer)) (entries : List Pointer) : Prop :=
  ∃ behind, array = entries.map some ++ none :: behind

/-- The entries of a name, which may be several. -/
def Environ.named (st : Environ) (name : List Byte) : List Pointer :=
  st.entries.filter fun entry => name ++ [equalsSign] <+: textAt st.objects entry

/-- After `unsetenv` returns 0, `getenv` finds nothing for the name and what it found before for other strings. A
string that goes on with an equals sign behind the name is no name, but the start of an entry of the name. -/
def RemovesVariable (st : Environ) (name : Pointer) : Prop :=
  ∀ next, unsetenv st name = (0, next) → getenv next name = none ∧
    ∀ other, textAt st.objects other ≠ textAt st.objects name →
      ¬ textAt st.objects name ++ [equalsSign] <+: textAt st.objects other → getenv next other = getenv st other

end CLite
