import Mathlib.Data.List.TakeWhile
import CLite.Model.Exec

/-! # `execvp`

`execvp` should try the elements of the search path in order, an empty one being the current directory. Its loop
ends where the search path does, so an empty last element is never tried. Its length test counts a byte too few for
the current directory. Everywhere else it runs the first candidate that can be accessed.
-/

namespace CLite

section Candidates

variable (kernel : ExecKernel)

/-- `access` succeeds. -/
def accessible (path : CString) : Bool := (access kernel path 0 0).1 = 0

/-- The elements of a search path. -/
def pathElements (path : CString) : List CString := path.splitOn (chr ':')

/-- The path that an element makes of a file name. -/
def candidate (file element : CString) : CString :=
  if element = [] then chr '.' :: chr '/' :: file else element ++ chr '/' :: file

/-- The candidate has less than 256 bytes with its terminator and can be accessed. -/
def Acceptable (candidate : CString) : Prop := candidate.length + 1 < 256 ∧ accessible kernel candidate = true

instance (candidate : CString) : Decidable (Acceptable kernel candidate) := inferInstanceAs (Decidable (_ ∧ _))

/-- The first acceptable candidate in the order of the search path. -/
def firstCandidate (path file : CString) : Option CString :=
  ((pathElements path).map (candidate file)).find? (Acceptable kernel ·)

/-- `execve` is called with the first acceptable candidate. Without one, `execvp` fails with `ENOENT` and there is
no such call. -/
def SearchesPath (path file : CString) (outcome : ExecOutcome) : Prop :=
  match firstCandidate kernel path file with
  | some candidate => outcome.executed = some candidate
  | none => outcome = ⟨none, -1, ENOENT⟩

end Candidates

section Loop

variable {kernel : ExecKernel} {file path p : CString}

/-- `errno` has no influence on what `access` returns. -/
theorem access_eq_zero (path : CString) (errno : ℤ) :
    (access kernel path 0 errno).1 = 0 ↔ accessible kernel path = true := by
  rw [accessible, decide_eq_true_eq]
  unfold access
  dsimp only
  split
  · exact Iff.rfl
  · split <;> exact Iff.rfl

/-- The elements that the loop goes through: it ends at an empty last one. -/
def visitedElements (p : CString) : List CString :=
  if (pathElements p).getLast? = some [] then (pathElements p).dropLast else pathElements p

theorem visitedElements_nil : visitedElements [] = [] := rfl

theorem visitedElements_cons (nonempty : p ≠ []) :
    visitedElements p = p.takeWhile (· ≠ chr ':') :: visitedElements (nextElement p) := by
  have inner : ∀ x ∈ p.takeWhile (· ≠ chr ':'), (x == chr ':') = false := by
    intro x member
    simpa using List.mem_takeWhile_imp member
  rcases nextElement_cases p with ⟨all, last⟩ | split
  · rw [all] at inner
    have one : pathElements p = [p] := List.splitOnP_eq_singleton inner
    rw [all, last, visitedElements_nil, visitedElements, one, if_neg]
    intro empty
    exact nonempty (Option.some.inj empty)
  · have more : pathElements p = p.takeWhile (· ≠ chr ':') :: pathElements (nextElement p) := by
      conv_lhs => rw [split]
      exact List.splitOnP_append_cons_of_forall_mem inner (chr ':') (by decide) (nextElement p)
    obtain ⟨first, others, list⟩ := List.exists_cons_of_ne_nil (List.splitOn_ne_nil (chr ':') (nextElement p))
    have later : pathElements (nextElement p) = first :: others := list
    rw [visitedElements, visitedElements, more, later, List.getLast?_cons_cons, List.dropLast_cons_cons]
    split <;> rfl

/-- The test that the loop makes of an element. -/
def Tried (kernel : ExecKernel) (file element : CString) : Prop :=
  element.length + file.length + 2 < 256 ∧ accessible kernel (candidate file element) = true

instance (element : CString) : Decidable (Tried kernel file element) := inferInstanceAs (Decidable (_ ∧ _))

theorem find_tried {element : CString} {others : List CString} (tried : Tried kernel file element) :
    (element :: others).find? (Tried kernel file ·) = some element :=
  List.find?_cons_of_pos (by simpa using tried)

theorem find_untried {element : CString} {others : List CString} (untried : ¬ Tried kernel file element) :
    (element :: others).find? (Tried kernel file ·) = others.find? (Tried kernel file ·) :=
  List.find?_cons_of_neg (by simpa using untried)

/-- The string that the loop puts together is the candidate. -/
theorem buf_eq_candidate (file element : CString) :
    (if element.length = 0 then chr '.' :: chr '/' :: file else element ++ chr '/' :: file) =
      candidate file element := by
  simp only [candidate, List.length_eq_zero_iff]

/-- The loop runs the candidate of the first element that passes its test. -/
theorem execvpLoop_find (kernel : ExecKernel) (file p : CString) (errno : ℤ) :
    (execvpLoop kernel file p errno).executed =
        ((visitedElements p).find? (Tried kernel file ·)).map (candidate file) ∧
      ((visitedElements p).find? (Tried kernel file ·) = none →
        execvpLoop kernel file p errno = ⟨none, -1, ENOENT⟩) := by
  fun_induction execvpLoop kernel file p errno with
  | case1 errno => exact ⟨rfl, fun _ => rfl⟩
  | case2 p errno nonempty element fits buf errno' probed =>
    have tried : Tried kernel file (p.takeWhile (· ≠ chr ':')) := by
      refine ⟨fits, ?_⟩
      rw [← buf_eq_candidate, ← access_eq_zero _ errno]
      exact congrArg Prod.fst probed
    rw [visitedElements_cons nonempty, find_tried tried, Option.map_some, ← buf_eq_candidate]
    exact ⟨rfl, nofun⟩
  | case3 p errno nonempty element fits buf found errno' probed failure ih =>
    have untried : ¬ Tried kernel file (p.takeWhile (· ≠ chr ':')) := by
      rintro ⟨-, success⟩
      rw [← buf_eq_candidate, ← access_eq_zero _ errno] at success
      exact failure ((congrArg Prod.fst probed).symm.trans success)
    rw [visitedElements_cons nonempty, find_untried untried]
    exact ih
  | case4 p errno nonempty element long ih =>
    have untried : ¬ Tried kernel file (p.takeWhile (· ≠ chr ':')) := fun tried => long tried.1
    rw [visitedElements_cons nonempty, find_untried untried]
    exact ih

/-- The loop searches the path exactly if its first element is that of the first acceptable candidate. -/
theorem searchesPath_iff (errno : ℤ) :
    SearchesPath kernel path file (execvpLoop kernel file path errno) ↔
      ((visitedElements path).find? (Tried kernel file ·)).map (candidate file) =
        firstCandidate kernel path file := by
  obtain ⟨executed, failed⟩ := execvpLoop_find kernel file path errno
  unfold SearchesPath
  cases first : firstCandidate kernel path file with
  | some candidate => rw [← executed]
  | none =>
    rw [Option.map_eq_none_iff]
    refine ⟨?_, failed⟩
    intro nothing
    rw [nothing] at executed
    exact Option.map_eq_none_iff.mp executed.symm

end Loop

section Conditions

variable {kernel : ExecKernel} {file path : CString}

/-- Except for the current directory, the test counts the bytes of the candidate. -/
theorem acceptable_iff_tried (element : CString) (other : file.length ≠ 253) :
    Acceptable kernel (candidate file element) ↔ Tried kernel file element := by
  refine and_congr_left fun _ => ?_
  unfold candidate
  split
  · next empty =>
    simp only [empty, List.length_cons, List.length_nil]
    omega
  · simp only [List.length_append, List.length_cons]
    omega

/-- No candidate of a file name of 253 bytes is short enough. -/
theorem not_acceptable (element : CString) (length : file.length = 253) :
    ¬ Acceptable kernel (candidate file element) := by
  rintro ⟨short, -⟩
  unfold candidate at short
  split at short
  · simp only [List.length_cons] at short
    omega
  · next nonempty =>
    have positive := List.length_pos_iff.mpr nonempty
    simp only [List.length_append, List.length_cons] at short
    omega

theorem tried_iff_empty (element : CString) (length : file.length = 253) :
    Tried kernel file element ↔ element = [] ∧ accessible kernel (candidate file []) = true := by
  constructor
  · rintro ⟨short, found⟩
    obtain rfl : element = [] := List.length_eq_zero_iff.mp (by omega)
    exact ⟨rfl, found⟩
  · rintro ⟨rfl, found⟩
    exact ⟨by simp [length], found⟩

/-- An empty last element does not matter, because the file is not found there or is found before, and the current
directory is not taken for a file name of 253 bytes. -/
def LastElementCovered (kernel : ExecKernel) (path file : CString) : Prop :=
  (file.length < 253 → (pathElements path).getLast? = some [] → accessible kernel (candidate file []) = true →
    ∃ element ∈ (pathElements path).dropLast, Tried kernel file element) ∧
  (file.length = 253 → [] ∈ (pathElements path).dropLast → accessible kernel (candidate file []) = false)

/-- The elements before the last one, and the last one. -/
theorem pathElements_concat (path : CString) : ∃ front last, pathElements path = front ++ [last] := by
  rcases List.eq_nil_or_concat (pathElements path) with none | ⟨front, last, list⟩
  · exact absurd none (List.splitOn_ne_nil (chr ':') path)
  · exact ⟨front, last, list.trans List.concat_eq_append⟩

theorem visitedElements_concat {front : List CString} {last : CString} (list : pathElements path = front ++ [last]) :
    visitedElements path = if last = [] then front else front ++ [last] := by
  simp only [visitedElements, list, List.getLast?_concat, List.dropLast_concat, Option.some.injEq]

/-- With a file name of 253 bytes, nothing is acceptable and the loop takes the current directory. -/
theorem find_visited_long (length : file.length = 253) :
    ((visitedElements path).find? (Tried kernel file ·)).map (candidate file) = firstCandidate kernel path file ↔
      ([] ∈ (pathElements path).dropLast → accessible kernel (candidate file []) = false) := by
  have nothing : firstCandidate kernel path file = none := by
    refine List.find?_eq_none.mpr fun text member => ?_
    obtain ⟨element, -, rfl⟩ := List.mem_map.mp member
    exact decide_eq_true_iff.not.mpr (not_acceptable element length)
  obtain ⟨front, last, list⟩ := pathElements_concat path
  have members : [] ∈ visitedElements path ↔ [] ∈ front := by
    rw [visitedElements_concat list]
    split
    · exact Iff.rfl
    · next nonempty => simp [Ne.symm nonempty]
  rw [nothing, Option.map_eq_none_iff, List.find?_eq_none, list, List.dropLast_concat, ← members]
  simp only [decide_eq_true_eq, tried_iff_empty _ length]
  constructor
  · intro untried member
    rw [← Bool.not_eq_true]
    exact fun found => untried [] member ⟨rfl, found⟩
  · rintro hidden element member ⟨rfl, found⟩
    rw [hidden member] at found
    cases found

/-- With other file names, what is missed is an empty last element. -/
theorem find_visited_short (other : file.length ≠ 253) :
    ((visitedElements path).find? (Tried kernel file ·)).map (candidate file) = firstCandidate kernel path file ↔
      (file.length < 253 → (pathElements path).getLast? = some [] → accessible kernel (candidate file []) = true →
        ∃ element ∈ (pathElements path).dropLast, Tried kernel file element) := by
  have first : firstCandidate kernel path file =
      ((pathElements path).find? (Tried kernel file ·)).map (candidate file) := by
    rw [firstCandidate, List.find?_map]
    congr 2
    funext element
    exact decide_eq_decide.mpr (acceptable_iff_tried element other)
  obtain ⟨front, last, list⟩ := pathElements_concat path
  rw [first, visitedElements_concat list, list, List.getLast?_concat, List.dropLast_concat, Option.some.injEq]
  split
  · next empty =>
    rw [empty, List.find?_append]
    cases found : front.find? (Tried kernel file ·) with
    | some element =>
      refine iff_of_true (by rw [Option.some_or]) ?_
      intro _ _ _
      exact ⟨element, List.mem_of_find?_eq_some found, by simpa using List.find?_some found⟩
    | none =>
      have untried : ∀ element ∈ front, ¬ Tried kernel file element := by simpa using found
      rw [Option.none_or, Option.map_none, eq_comm, Option.map_eq_none_iff, List.find?_eq_none]
      simp only [List.mem_singleton, decide_eq_true_eq, forall_eq]
      constructor
      · intro missed short _ present
        refine absurd ⟨?_, present⟩ missed
        rw [List.length_nil]
        omega
      · rintro covered ⟨short, present⟩
        rw [List.length_nil] at short
        obtain ⟨element, member, tried⟩ := covered (by omega) trivial present
        exact untried element member tried
  · next nonempty =>
    refine iff_of_true rfl ?_
    intro _ empty
    exact absurd empty nonempty

theorem find_visited_iff :
    ((visitedElements path).find? (Tried kernel file ·)).map (candidate file) = firstCandidate kernel path file ↔
      LastElementCovered kernel path file := by
  rcases eq_or_ne file.length 253 with length | other
  · rw [find_visited_long length, LastElementCovered]
    refine ⟨fun hidden => ⟨fun short => absurd length short.ne, fun _ => hidden⟩, fun covered => covered.2 length⟩
  · rw [find_visited_short other, LastElementCovered]
    exact ⟨fun covered => ⟨covered, fun length => absurd length other⟩, And.left⟩

/-- `execvp` searches the path exactly if an empty last element does not matter. -/
theorem execvp_searches_iff (kernel : ExecKernel) (path_env : Option CString) (file : CString) (errno : ℤ)
    (nonempty : file ≠ []) (plain : chr '/' ∉ file) :
    SearchesPath kernel (path_env.getD defaultPath) file (execvp kernel path_env file errno) ↔
      LastElementCovered kernel (path_env.getD defaultPath) file := by
  rw [execvp, if_neg nonempty, if_neg plain, searchesPath_iff, find_visited_iff]

/-- A kernel in which only the given paths can be accessed. -/
def kernelWith (paths : List CString) : ExecKernel where
  sys_access path _ := if path ∈ paths then 0 else -2
  sys_stat path := if path ∈ paths then 0 else -2
  sys_execve _ := -2

/-- A program in the current directory is not found by the empty last element of `/bin:`, nor by an empty `PATH`. -/
theorem trailing_element_missed :
    ¬ SearchesPath (kernelWith ["./x".toList.map chr]) ("/bin:".toList.map chr) ("x".toList.map chr)
        (execvp (kernelWith ["./x".toList.map chr]) (some ("/bin:".toList.map chr)) ("x".toList.map chr) 0) ∧
      ¬ SearchesPath (kernelWith ["./x".toList.map chr]) [] ("x".toList.map chr)
        (execvp (kernelWith ["./x".toList.map chr]) (some []) ("x".toList.map chr) 0) := by
  refine ⟨?_, ?_⟩
  · rw [execvp, if_neg (by decide), if_neg (by decide), Option.getD_some, searchesPath_iff, find_visited_iff]
    rintro ⟨covered, -⟩
    exact absurd (covered (by decide) (by decide) (by decide)) (by decide)
  · rw [execvp, if_neg (by decide), if_neg (by decide), Option.getD_some, searchesPath_iff, find_visited_iff]
    rintro ⟨covered, -⟩
    exact absurd (covered (by decide) (by decide) (by decide)) (by decide)

/-- An empty element in front, and one behind that does not matter. -/
theorem execvp_searches_leading :
    SearchesPath (kernelWith ["./x".toList.map chr]) (":/bin:".toList.map chr) ("x".toList.map chr)
      (execvp (kernelWith ["./x".toList.map chr]) (some (":/bin:".toList.map chr)) ("x".toList.map chr) 0) := by
  apply (execvp_searches_iff _ (some (":/bin:".toList.map chr)) _ 0 (by decide) (by decide)).mpr
  refine ⟨fun _ _ _ => ⟨[], by decide, by decide⟩, ?_⟩
  intro length
  exact absurd length (by decide)

end Conditions

end CLite
