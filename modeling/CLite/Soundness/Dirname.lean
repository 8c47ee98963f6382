import CLite.Spec.PathComponents
import Mathlib.Data.List.DropRight
import Mathlib.Logic.Function.Iterate

/-! # `dirname` and `basename`

A path with a component is what stands in front of its last component, the component, and the slashes at its end.
Both functions are given by these parts. `dirname` takes one slash off the front part, so that the other slashes in
front of the last component stay.
-/

namespace CLite

open Delimited

/-- A path as the part in front of its last component, the component and the slashes at its end. -/
structure Parts (path front base tail : CString) : Prop where
  whole : path = front ++ base ++ tail
  nonempty : base ≠ []
  plain : chr '/' ∉ base
  ended : front = [] ∨ ∃ dir, front = dir ++ [chr '/']
  slashes : ∀ x ∈ tail, x = chr '/'

section Loops

variable {path front base tail dir s : CString} {c : CChar}

/-- The last character of the middle part, by its offset. -/
theorem getElem?_middle (front middle more : CString) (x : CChar) :
    (front ++ (middle ++ [x]) ++ more)[front.length + middle.length]? = some x := by
  rw [← List.length_append, ← List.append_assoc, List.append_assoc _ [x],
    List.getElem?_append_right (Nat.le_refl _)]
  simp

/-- The slashes at the end are taken off. -/
theorem stripLoop_slashes (slashes : ∀ x ∈ tail, x = chr '/') (nonempty : s ≠ [])
    (kept : s.length = 1 ∨ s.getLast? ≠ some (chr '/')) (more : CString) :
    stripLoop (s ++ tail ++ more) (s.length + tail.length) = s.length := by
  induction tail using List.reverseRecOn generalizing more with
  | nil =>
    obtain ⟨start, x, rfl⟩ := (List.eq_nil_or_concat' s).resolve_left nonempty
    rw [List.getLast?_concat, List.length_append, List.length_singleton] at kept
    rw [List.length_append, List.length_singleton, List.length_nil, Nat.add_zero, stripLoop, if_neg]
    rintro ⟨long, slash⟩
    rcases kept with single | other
    · omega
    · exact other (by simpa using slash)
  | append_singleton tail x ih =>
    obtain rfl : x = chr '/' := slashes x (by simp)
    have long : 0 < s.length := List.length_pos_iff.mpr nonempty
    have here := getElem?_middle s tail more (chr '/')
    rw [List.length_append, List.length_singleton, ← Nat.add_assoc, stripLoop, if_pos ⟨by omega, here⟩]
    have shorter := ih (fun y member => slashes y (by simp [member])) (chr '/' :: more)
    simpa using shorter

theorem strrchrLoop_none (none : c ∉ s) (i : ℕ) (last : Option ℕ) : strrchrLoop c i last s = last := by
  induction s generalizing i with
  | nil => rfl
  | cons x s ih =>
    obtain ⟨other, later⟩ := List.ne_and_not_mem_of_not_mem_cons none
    rw [strrchrLoop, if_neg (Ne.symm other), ih later]

theorem strrchrLoop_last (none : c ∉ base) (i : ℕ) (last : Option ℕ) :
    strrchrLoop c i last (dir ++ c :: base) = some (i + dir.length) := by
  induction dir generalizing i last with
  | nil => rw [List.nil_append, strrchrLoop, if_pos rfl, strrchrLoop_none none, List.length_nil, Nat.add_zero]
  | cons x dir ih => rw [List.cons_append, strrchrLoop, ih, List.length_cons, Nat.add_assoc, Nat.add_comm 1]

/-- The last component begins behind the front part. -/
theorem startLoop_base (plain : chr '/' ∉ base) (ended : front = [] ∨ ∃ dir, front = dir ++ [chr '/'])
    (more : CString) :
    startLoop (front ++ base ++ more) (front.length + base.length) = front.length := by
  induction base using List.reverseRecOn generalizing more with
  | nil =>
    rcases ended with rfl | ⟨dir, rfl⟩
    · rfl
    · rw [List.length_append, List.length_singleton, List.length_nil, Nat.add_zero, startLoop, if_neg]
      simp
  | append_singleton base x ih =>
    have inner : x ≠ chr '/' := fun same => plain (by simp [same])
    rw [List.length_append, List.length_singleton, ← Nat.add_assoc, startLoop, getElem?_middle,
      if_pos fun same => inner (Option.some.inj same)]
    have earlier := ih (fun member => plain (by simp [member])) (x :: more)
    simpa using earlier

end Loops

/-- `dirname`, from the part in front of the last component. -/
def parentOf (front : CString) : CString :=
  if front = [] then [chr '.'] else if front = [chr '/'] then [chr '/'] else front.dropLast

theorem parentOf_concat (dir : CString) : parentOf (dir ++ [chr '/']) = if dir = [] then [chr '/'] else dir := by
  by_cases empty : dir = []
  · rw [empty]
    rfl
  · rw [parentOf, if_neg (by simp), if_neg (by simpa using empty), List.dropLast_concat, if_neg empty]

namespace Parts

variable {path front base tail : CString}

/-- Every path with a component has its parts. -/
theorem exists_of_named (named : ∃ x ∈ path, x ≠ chr '/') :
    ∃ front base tail, Parts path front base tail ∧ path.rdropWhile slash = front ++ base := by
  have nonempty : path.rdropWhile slash ≠ [] := by
    obtain ⟨x, member, inner⟩ := named
    intro none
    exact inner (slash_iff.mp (List.rdropWhile_eq_nil_iff.mp none x member))
  have last := List.rdropWhile_last_not slash path nonempty
  generalize stripped : path.rdropWhile slash = s at nonempty last
  have split : s.rdropWhile (fun x => !slash x) ++ s.rtakeWhile (fun x => !slash x) = s :=
    List.rdropWhile_append_rtakeWhile
  refine ⟨s.rdropWhile (fun x => !slash x), s.rtakeWhile (fun x => !slash x), path.rtakeWhile slash, ?_, split.symm⟩
  constructor
  · rw [split, ← stripped, List.rdropWhile_append_rtakeWhile]
  · intro none
    exact List.rtakeWhile_eq_nil_iff.mp none nonempty (by simpa using last)
  · intro member
    exact absurd (List.mem_rtakeWhile_imp member) (by decide)
  · rcases List.eq_nil_or_concat' (s.rdropWhile fun x => !slash x) with none | ⟨dir, x, concat⟩
    · exact .inl none
    · have slash := List.rdropWhile_last_not (fun x => !slash x) s (by rw [concat]; simp)
      simp only [concat, List.getLast_concat, Bool.not_eq_true', Bool.not_eq_false, slash_iff] at slash
      exact .inr ⟨dir, concat.trans (by rw [slash])⟩
  · intro x member
    exact slash_iff.mp (List.mem_rtakeWhile_imp member)

theorem last_inner (parts : Parts path front base tail) : (front ++ base).getLast? ≠ some (chr '/') := by
  obtain ⟨start, x, rfl⟩ := (List.eq_nil_or_concat' base).resolve_left parts.nonempty
  rw [← List.append_assoc, List.getLast?_concat]
  intro same
  exact parts.plain (by simp [Option.some.inj same])

theorem stripped_nonempty (parts : Parts path front base tail) : front ++ base ≠ [] :=
  fun none => parts.nonempty (List.append_eq_nil_iff.mp none).2

theorem stripLoop_eq (parts : Parts path front base tail) : stripLoop path path.length = (front ++ base).length := by
  have loop := stripLoop_slashes parts.slashes parts.stripped_nonempty (.inr parts.last_inner) []
  rwa [List.append_nil, ← List.length_append, ← parts.whole] at loop

theorem path_nonempty (parts : Parts path front base tail) : path ≠ [] := by
  intro none
  rw [parts.whole] at none
  exact parts.stripped_nonempty (List.append_eq_nil_iff.mp none).1

/-- `basename` is the last component. -/
theorem basename_eq (parts : Parts path front base tail) (short : path.length < 1024) : basename path = base := by
  have length : path.length = front.length + base.length + tail.length := by
    rw [parts.whole, List.length_append, List.length_append]
  have start : startLoop path (front ++ base).length = front.length := by
    rw [parts.whole, List.length_append]
    exact startLoop_base parts.plain parts.ended tail
  have long : base.length ≠ 0 := fun none => parts.nonempty (List.length_eq_zero_iff.mp none)
  simp only [basename, if_neg parts.path_nonempty, parts.stripLoop_eq, start]
  rw [List.length_append, Nat.add_sub_cancel_left, if_neg long, if_neg (by omega), parts.whole, List.append_assoc,
    List.drop_left, List.take_left]

/-- `dirname` is the part in front of the last component, without its last slash. -/
theorem dirname_eq (parts : Parts path front base tail) (short : path.length < 1024) :
    dirname path = parentOf front := by
  have stripped : path.take (front ++ base).length = front ++ base := by rw [parts.whole, List.take_left]
  simp only [dirname, if_neg parts.path_nonempty, if_neg (Nat.not_le_of_lt short), List.take_length,
    parts.stripLoop_eq,
    stripped, strrchr]
  rcases parts.ended with rfl | ⟨dir, rfl⟩
  · rw [List.nil_append, strrchrLoop_none parts.plain]
    rfl
  · rw [List.append_assoc, List.singleton_append, strrchrLoop_last parts.plain, Nat.zero_add, parentOf_concat]
    simp only [List.length_eq_zero_iff, List.take_left]

theorem pathNames_eq (parts : Parts path front base tail) : pathNames path = pathNames front ++ [base] := by
  have inner : ∀ x ∈ base, slash x = false := fun x member => slash_eq_false fun same => parts.plain (same ▸ member)
  have single : segments slash base = [base] := segments_of_inner parts.nonempty inner
  rw [pathNames, parts.whole, segments_append_delimiters fun x member => slash_iff.mpr (parts.slashes x member)]
  rcases parts.ended with rfl | ⟨dir, rfl⟩
  · exact single
  · rw [List.append_assoc, List.singleton_append, segments_append_cons (by decide), single, pathNames,
      segments_concat_delimiter (by decide)]

theorem isAbsolute_iff (parts : Parts path front base tail) : IsAbsolute path ↔ IsAbsolute front := by
  rw [parts.whole, IsAbsolute, IsAbsolute]
  cases front with
  | nil =>
    obtain ⟨x, rest, rfl⟩ := List.exists_cons_of_ne_nil parts.nonempty
    obtain ⟨inner, _⟩ := List.ne_and_not_mem_of_not_mem_cons parts.plain
    simp [Ne.symm inner]
  | cons x front => rfl

end Parts

section Slashes

variable {path : CString}

theorem pathNames_eq_nil_iff : pathNames path = [] ↔ ∀ x ∈ path, x = chr '/' := by
  simp only [pathNames, segments_eq_nil_iff, slash_iff]

/-- A path of slashes is its own directory. -/
theorem dirname_slashes (slashes : ∀ x ∈ path, x = chr '/') (short : path.length < 1024) :
    dirname path = if path = [] then [chr '.'] else [chr '/'] := by
  cases path with
  | nil => rfl
  | cons x tail =>
    obtain ⟨rfl, later⟩ := List.forall_mem_cons.mp slashes
    have loop : stripLoop (chr '/' :: tail) (chr '/' :: tail).length = 1 := by
      have loop := stripLoop_slashes later (List.cons_ne_nil (chr '/') []) (.inl rfl) []
      rwa [List.append_nil, List.singleton_append, ← List.length_append, List.singleton_append] at loop
    simp only [dirname, if_neg (Nat.not_le_of_lt short), List.take_length, loop]
    rfl

end Slashes

section Iteration

/-- `dirname` comes to the root or to the working directory. -/
theorem dirname_reaches (path : CString) (short : path.length < 1024) :
    ∃ k, dirname^[k] path = [chr '/'] ∨ dirname^[k] path = [chr '.'] := by
  induction size : path.length using Nat.strong_induction_on generalizing path with
  | _ n ih =>
    by_cases named : ∃ x ∈ path, x ≠ chr '/'
    · obtain ⟨front, base, tail, parts, _⟩ := Parts.exists_of_named named
      have directory := parts.dirname_eq short
      rcases parts.ended with rfl | ⟨dir, rfl⟩
      · exact ⟨1, .inr directory⟩
      · rw [parentOf_concat] at directory
        split at directory
        · exact ⟨1, .inl directory⟩
        · have shorter : dir.length < path.length := by
            rw [parts.whole]
            simp only [List.length_append, List.length_singleton]
            omega
          obtain ⟨k, reached⟩ := ih dir.length (by omega) dir (by omega) rfl
          rw [← directory] at reached
          exact ⟨k + 1, reached⟩
    · push Not at named
      have directory := dirname_slashes named short
      split at directory
      · exact ⟨1, .inr directory⟩
      · exact ⟨1, .inl directory⟩

end Iteration

/-- `basename` is the last component, `dirname` has the others and is absolute if the path is, and `dirname` comes to
the root or to the working directory. -/
theorem dirname_basename_recompose (path : CString) (short : path.length < 1024) (named : ∃ x ∈ path, x ≠ chr '/') :
    (pathNames path).getLast? = some (basename path) ∧
      (chr '/' ∉ path.rdropWhile slash → dirname path = [chr '.']) ∧
      (chr '/' ∈ path.rdropWhile slash →
        pathNames (dirname path) = (pathNames path).dropLast ∧ (IsAbsolute (dirname path) ↔ IsAbsolute path)) ∧
      ∃ k, dirname^[k] path = [chr '/'] ∨ dirname^[k] path = [chr '.'] := by
  obtain ⟨front, base, tail, parts, stripped⟩ := Parts.exists_of_named named
  rw [stripped, parts.pathNames_eq, parts.basename_eq short, parts.dirname_eq short, parts.isAbsolute_iff,
    List.dropLast_concat]
  refine ⟨List.getLast?_concat, ?_, ?_, dirname_reaches path short⟩
  · intro none
    rcases parts.ended with rfl | ⟨dir, rfl⟩
    · rfl
    · exact absurd none (by simp)
  · intro some
    rcases parts.ended with rfl | ⟨dir, rfl⟩
    · exact absurd some parts.plain
    · rw [parentOf_concat]
      split
      · next none => rw [none]; decide
      · next nonempty =>
        obtain ⟨x, rest, rfl⟩ := List.exists_cons_of_ne_nil nonempty
        exact ⟨(segments_concat_delimiter (by decide) _).symm, Iff.rfl⟩

theorem dirname_basename_recompose_usr :
    (pathNames (cstr "/usr//lib/")).getLast? = some (basename (cstr "/usr//lib/")) ∧
      pathNames (dirname (cstr "/usr//lib/")) = [cstr "usr"] := by
  obtain ⟨last, _, others, _⟩ := dirname_basename_recompose (cstr "/usr//lib/") (by decide) (by decide)
  exact ⟨last, (others (by decide)).1⟩

section Runs

variable {front other : CString}

theorem eq_nil_of_relative (slashes : ∀ x ∈ front, x = chr '/') (relative : ¬ IsAbsolute front) : front = [] := by
  cases front with
  | nil => rfl
  | cons x front => exact absurd (congrArg some (slashes x (List.mem_cons_self ..))) relative

theorem nil_iff_of_same (names : pathNames front = pathNames other) (rooted : IsAbsolute front ↔ IsAbsolute other) :
    front = [] ↔ other = [] := by
  constructor
  · rintro rfl
    exact eq_nil_of_relative (pathNames_eq_nil_iff.mp names.symm) fun absolute => nomatch rooted.mpr absolute
  · rintro rfl
    exact eq_nil_of_relative (pathNames_eq_nil_iff.mp names) fun absolute => nomatch rooted.mp absolute

/-- A front part is one slash or two exactly if it is short and has no component. -/
theorem short_slashes_iff (dir : CString) :
    pathNames (dir ++ [chr '/']) = [] ∧ (dir ++ [chr '/']).length ≤ 2 ↔ dir = [] ∨ dir = [chr '/'] := by
  rw [pathNames, segments_concat_delimiter (by decide), segments_eq_nil_iff, List.length_append]
  constructor
  · rintro ⟨slashes, short⟩
    match dir with
    | [] => exact .inl rfl
    | [x] => exact .inr (congrArg (· :: []) (slash_iff.mp (slashes x (List.mem_cons_self ..))))
    | _ :: _ :: _ => simp only [List.length_cons] at short; omega
  · rintro (rfl | rfl)
    · exact ⟨by simp, by decide⟩
    · exact ⟨by decide, by decide⟩

/-- When two front parts with the same components give the same directory. -/
theorem parentOf_same_iff (ended : front = [] ∨ ∃ dir, front = dir ++ [chr '/'])
    (endedOther : other = [] ∨ ∃ dir, other = dir ++ [chr '/']) (names : pathNames front = pathNames other)
    (rooted : IsAbsolute front ↔ IsAbsolute other) : parentOf front = parentOf other ↔
      front = other ∨ pathNames front = [] ∧ front.length ≤ 2 ∧ other.length ≤ 2 := by
  have both := nil_iff_of_same names rooted
  rcases ended with rfl | ⟨dir, rfl⟩
  · rw [both.mp rfl]
    exact iff_of_true rfl (.inl rfl)
  · rcases endedOther with rfl | ⟨dirOther, rfl⟩
    · exact absurd (both.mpr rfl) (by simp)
    · have short : pathNames (dir ++ [chr '/']) = [] ∧ (dir ++ [chr '/']).length ≤ 2 ∧
          (dirOther ++ [chr '/']).length ≤ 2 ↔
          (dir = [] ∨ dir = [chr '/']) ∧ (dirOther = [] ∨ dirOther = [chr '/']) := by
        rw [← short_slashes_iff dir, ← short_slashes_iff dirOther, ← names]
        tauto
      rw [short, parentOf_concat, parentOf_concat, List.append_left_inj]
      by_cases root : dir = [] <;> by_cases rootOther : dirOther = [] <;> simp [root, rootOther] <;> grind

/-- The slashes in front of the only component are the front part. -/
theorem Parts.takeWhile_eq {path base tail : CString} (parts : Parts path front base tail)
    (slashes : pathNames front = []) : path.takeWhile slash = front := by
  have cuts : ∀ x ∈ front, slash x = true := segments_eq_nil_iff.mp slashes
  obtain ⟨x, rest, rfl⟩ := List.exists_cons_of_ne_nil parts.nonempty
  obtain ⟨inner, _⟩ := List.ne_and_not_mem_of_not_mem_cons parts.plain
  rw [parts.whole, List.append_assoc, List.takeWhile_append_of_pos cuts, List.cons_append,
    List.takeWhile_cons_of_neg (by simp [slash_iff, Ne.symm inner]), List.append_nil]

end Runs

/-- Two paths that differ only in their runs of slashes have the same directory exactly if they differ only at their
end, or have one component with at most two slashes in front of it. -/
theorem dirname_same_iff (p q : CString) (shortP : p.length < 1024) (shortQ : q.length < 1024)
    (names : pathNames p = pathNames q) (rooted : IsAbsolute p ↔ IsAbsolute q) :
    dirname p = dirname q ↔ p.rdropWhile slash = q.rdropWhile slash ∨
      (pathNames p).length = 1 ∧ (p.takeWhile slash).length ≤ 2 ∧ (q.takeWhile slash).length ≤ 2 := by
  by_cases none : pathNames p = []
  · have slashesP := pathNames_eq_nil_iff.mp none
    have slashesQ := pathNames_eq_nil_iff.mp (names ▸ none)
    rw [dirname_slashes slashesP shortP, dirname_slashes slashesQ shortQ]
    simp only [nil_iff_of_same names rooted, true_iff]
    rw [List.rdropWhile_eq_nil_iff.mpr fun x member => slash_iff.mpr (slashesP x member),
      List.rdropWhile_eq_nil_iff.mpr fun x member => slash_iff.mpr (slashesQ x member)]
    exact .inl rfl
  · have namedP : ∃ x ∈ p, x ≠ chr '/' := by simpa [pathNames_eq_nil_iff] using none
    have namedQ : ∃ x ∈ q, x ≠ chr '/' := by simpa [names, pathNames_eq_nil_iff] using none
    obtain ⟨frontP, base, tailP, partsP, strippedP⟩ := Parts.exists_of_named namedP
    obtain ⟨frontQ, baseQ, tailQ, partsQ, strippedQ⟩ := Parts.exists_of_named namedQ
    rw [partsP.pathNames_eq, partsQ.pathNames_eq] at names
    obtain ⟨same, rfl⟩ : pathNames frontP = pathNames frontQ ∧ base = baseQ := by
      simpa using List.append_inj' names rfl
    rw [partsP.isAbsolute_iff, partsQ.isAbsolute_iff] at rooted
    rw [partsP.dirname_eq shortP, partsQ.dirname_eq shortQ, strippedP, strippedQ, List.append_left_inj,
      parentOf_same_iff partsP.ended partsQ.ended same rooted, partsP.pathNames_eq]
    by_cases slashes : pathNames frontP = []
    · rw [partsP.takeWhile_eq slashes, partsQ.takeWhile_eq (same ▸ slashes)]
      simp [slashes]
    · simp [slashes]

theorem dirname_same_root : dirname (cstr "//a/") = dirname (cstr "/a") :=
  (dirname_same_iff (cstr "//a/") (cstr "/a") (by decide) (by decide) (by decide) (by decide)).mpr (by decide)

/-- The other slash in front of the last component stays. -/
theorem dirname_double_slash :
    pathNames (cstr "a//b") = pathNames (cstr "a/b") ∧ (IsAbsolute (cstr "a//b") ↔ IsAbsolute (cstr "a/b")) ∧
      dirname (cstr "a//b") ≠ dirname (cstr "a/b") := by
  decide

end CLite
