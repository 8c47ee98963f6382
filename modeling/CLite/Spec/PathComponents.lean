import CLite.Lib.Delimited
import CLite.Model.Paths

/-! # The components of a path

A path is made of components between slashes, and it is absolute or relative. The normal form of an absolute path has
single slashes in front of its components and no component that is a dot.
-/

namespace CLite

open Delimited

def slash (x : CChar) : Bool := x = chr '/'

theorem slash_iff {x : CChar} : slash x = true ↔ x = chr '/' := decide_eq_true_iff

theorem slash_eq_false {x : CChar} (other : x ≠ chr '/') : slash x = false := decide_eq_false other

/-- The pieces between the slashes that are not empty. -/
def pathNames (path : CString) : List CString := segments slash path

def IsAbsolute (path : CString) : Prop := path.head? = some (chr '/')

instance (path : CString) : Decidable (IsAbsolute path) := inferInstanceAs (Decidable (_ = _))

/-- The components other than a dot. -/
def namesWithoutDots (path : CString) : List CString := (pathNames path).filter (· ≠ [chr '.'])

/-- The components that a path has from the working directory. -/
def namesFrom (cwd path : CString) : List CString :=
  if IsAbsolute path then namesWithoutDots path else namesWithoutDots cwd ++ namesWithoutDots path

/-- A slash, and the components with single slashes between them. -/
def normalPath (names : List CString) : CString := chr '/' :: [chr '/'].intercalate names

/-- The path from the root, before anything is left out. -/
def absoluteForm (cwd path : CString) : CString := if IsAbsolute path then path else cwd ++ chr '/' :: path

/-- The path from the root does not end in a slash, unless it has no components. -/
def EndsInComponent (cwd path : CString) : Prop :=
  (absoluteForm cwd path).getLast? = some (chr '/') → namesFrom cwd path = []

instance (cwd path : CString) : Decidable (EndsInComponent cwd path) := inferInstanceAs (Decidable (_ → _))

end CLite
