import CLite.Spec.PathComponents

/-! # `realpath`

The loop of `realpath` goes along the pieces of the path, each with the slash in front of it: it passes over an empty
piece that another one follows and over a dot, and copies the others. An empty last piece is copied as well, so that a
slash at the end of the path stays. The path from the root is put together in two ways, and only one of them looks at
its length.
-/

namespace CLite

open Delimited

/-- Each piece with a slash in front of it. -/
def slashed (pieces : List CString) : CString := pieces.flatMap (chr '/' :: ·)

section Pieces

variable {pieces : List CString} {piece s : CString}

theorem slashed_cons : slashed (piece :: pieces) = chr '/' :: (piece ++ slashed pieces) := rfl

/-- The pieces of a path, each with a slash, are the path behind a slash. -/
theorem slashed_splitOnP (s : CString) : slashed (s.splitOnP slash) = chr '/' :: s := by
  induction s with
  | nil => rfl
  | cons x s ih =>
    obtain ⟨first, others, split⟩ := List.exists_cons_of_ne_nil (List.splitOnP_ne_nil slash s)
    rw [List.splitOnP_cons_eq_if_modifyHead]
    by_cases cut : slash x = true
    · rw [if_pos cut, slashed_cons, ih, slash_iff.mp cut, List.nil_append]
    · rw [split, slashed_cons, List.cons.injEq] at ih
      rw [if_neg cut, split, List.modifyHead_cons, slashed_cons, List.cons_append, ih.2]

theorem not_mem_of_piece (member : piece ∈ s.splitOnP slash) : chr '/' ∉ piece := by
  intro inside
  exact absurd (inner_of_mem_splitOnP member _ inside) (by decide)

/-- Components with single slashes between them and in front. -/
theorem normalPath_eq (names : List CString) :
    normalPath names = if names = [] then [chr '/'] else slashed names := by
  induction names with
  | nil => rfl
  | cons name names ih =>
    rw [if_neg (List.cons_ne_nil name names), normalPath, slashed_cons]
    cases names with
    | nil => simp [slashed]
    | cons other names =>
      rw [if_neg (List.cons_ne_nil other names), normalPath] at ih
      rw [List.intercalate_cons_cons, List.append_assoc, List.singleton_append, ih]

end Pieces

section Loop

variable {oi : ℕ} {x : CChar} {s piece : CString} {pieces : List CString}

theorem collapseLoop_inner (room : oi + 1 < 1024) (inner : x ≠ chr '/') (s : CString) :
    collapseLoop oi (x :: s) = x :: collapseLoop (oi + 1) s := by
  cases s with
  | nil => exact if_pos room
  | cons y s => rw [collapseLoop, if_pos room, if_neg (fun both => inner both.1), if_neg (fun all => inner all.1)]

/-- The characters of a piece are copied. -/
theorem collapseLoop_piece (plain : chr '/' ∉ piece) (room : oi + piece.length < 1024) (s : CString) :
    collapseLoop oi (piece ++ s) = piece ++ collapseLoop (oi + piece.length) s := by
  induction piece generalizing oi with
  | nil => rfl
  | cons x piece ih =>
    obtain ⟨inner, later⟩ := List.ne_and_not_mem_of_not_mem_cons plain
    rw [List.length_cons] at room
    rw [List.cons_append, collapseLoop_inner (by omega) (Ne.symm inner), ih later (by omega), List.length_cons,
      List.cons_append, Nat.add_assoc, Nat.add_comm 1]

theorem slashed_head (pieces : List CString) : slashed pieces = [] ∨ (slashed pieces).head? = some (chr '/') := by
  cases pieces with
  | nil => exact .inl rfl
  | cons piece pieces => exact .inr rfl

/-- An empty piece is passed over if another one follows. -/
theorem collapseLoop_empty (room : oi + 1 < 1024) (more : pieces ≠ []) :
    collapseLoop oi (slashed ([] :: pieces)) = collapseLoop oi (slashed pieces) := by
  obtain ⟨piece, others, rfl⟩ := List.exists_cons_of_ne_nil more
  rw [slashed_cons, List.nil_append, slashed_cons, collapseLoop, if_pos room, if_pos ⟨rfl, rfl⟩]

theorem collapseLoop_dot (room : oi + 1 < 1024) :
    collapseLoop oi (slashed ([chr '.'] :: pieces)) = collapseLoop oi (slashed pieces) := by
  rw [slashed_cons, List.singleton_append, collapseLoop, if_pos room, if_neg (by decide), if_pos]
  exact ⟨rfl, rfl, (slashed_head pieces).symm⟩

/-- Any other piece is copied with its slash. -/
theorem collapseLoop_name (room : oi + (piece.length + 1) < 1024) (plain : chr '/' ∉ piece) (nonempty : piece ≠ [])
    (other : piece ≠ [chr '.']) : collapseLoop oi (slashed (piece :: pieces)) =
      chr '/' :: (piece ++ collapseLoop (oi + (piece.length + 1)) (slashed pieces)) := by
  obtain ⟨y, ys, rfl⟩ := List.exists_cons_of_ne_nil nonempty
  obtain ⟨inner, later⟩ := List.ne_and_not_mem_of_not_mem_cons plain
  have notDot : ¬ (y = chr '.' ∧ ((ys ++ slashed pieces).head? = some (chr '/') ∨ ys ++ slashed pieces = [])) := by
    rintro ⟨rfl, ends⟩
    cases ys with
    | nil => exact other rfl
    | cons z zs =>
      rcases ends with next | none
      · exact later (Option.some.inj next ▸ List.mem_cons_self ..)
      · cases none
  have copied : collapseLoop (oi + 1) (y :: ys ++ slashed pieces) = _ := collapseLoop_piece plain (by omega) _
  rw [slashed_cons, List.cons_append, collapseLoop, if_pos (by omega), if_neg (fun both => inner both.2.symm),
    if_neg (fun all => notDot all.2), ← List.cons_append, copied, Nat.add_right_comm, Nat.add_assoc]

/-- The loop leaves the components that are neither empty nor a dot, and a slash behind an empty last one. -/
theorem collapseLoop_slashed (plain : ∀ piece ∈ pieces, chr '/' ∉ piece)
    (room : oi + (slashed pieces).length < 1024) :
    collapseLoop oi (slashed pieces) = slashed (pieces.filter fun piece => piece ≠ [] ∧ piece ≠ [chr '.']) ++
      if pieces.getLast? = some [] then [chr '/'] else [] := by
  induction pieces generalizing oi with
  | nil => rfl
  | cons piece pieces ih =>
    obtain ⟨here, later⟩ := List.forall_mem_cons.mp plain
    rw [slashed_cons, List.length_cons, List.length_append] at room
    by_cases empty : piece = []
    · subst empty
      rw [List.filter_cons_of_neg (by simp)]
      by_cases last : pieces = []
      · subst last
        exact if_pos (by omega)
      · rw [collapseLoop_empty (by omega) last, ih later (by simp only [List.length_nil] at room; omega)]
        obtain ⟨other, others, rfl⟩ := List.exists_cons_of_ne_nil last
        rw [List.getLast?_cons_cons]
    · by_cases dot : piece = [chr '.']
      · subst dot
        rw [List.filter_cons_of_neg (by simp), collapseLoop_dot (by omega), ih later (by omega)]
        cases pieces with
        | nil => rfl
        | cons other others => rw [List.getLast?_cons_cons]
      · rw [List.filter_cons_of_pos (by simp [empty, dot]), collapseLoop_name (by omega) here empty dot,
          ih later (by omega), slashed_cons, List.cons_append, List.append_assoc]
        cases pieces with
        | nil => simp [empty]
        | cons other others => rw [List.getLast?_cons_cons]

end Loop

section Names

variable {names : List CString} {name path tmp : CString}

theorem names_eq (s : CString) :
    namesWithoutDots (chr '/' :: s) = (s.splitOnP slash).filter fun piece => piece ≠ [] ∧ piece ≠ [chr '.'] := by
  rw [namesWithoutDots, pathNames, segments_cons_delimiter (by decide), segments, List.filter_filter]
  apply List.filter_congr
  intro piece _
  rw [← Bool.decide_and, decide_eq_decide]
  exact And.comm

/-- What the components of a path are. -/
structure IsName (name : CString) : Prop where
  nonempty : name ≠ []
  plain : chr '/' ∉ name
  notDot : name ≠ [chr '.']

theorem isName_of_mem (member : name ∈ namesWithoutDots path) : IsName name := by
  rw [namesWithoutDots, List.mem_filter, pathNames, segments, List.mem_filter] at member
  exact ⟨by simpa using member.1.2, not_mem_of_piece member.1.1, by simpa using member.2⟩

/-- The last character is a slash exactly if the last piece is empty. -/
theorem getLast?_slashed (front : List CString) (plain : chr '/' ∉ name) :
    (slashed (front ++ [name])).getLast? = some (chr '/') ↔ name = [] := by
  rw [slashed, List.flatMap_append, List.flatMap_singleton]
  rcases List.eq_nil_or_concat name with rfl | ⟨rest, last, rfl⟩
  · simp
  · rw [List.concat_eq_append] at plain ⊢
    have inner : last ≠ chr '/' := fun same => plain (by simp [same])
    rw [← List.cons_append, ← List.append_assoc, List.getLast?_concat]
    simp [inner]

theorem getLast?_splitOnP (s : CString) :
    (s.splitOnP slash).getLast? = some [] ↔ (chr '/' :: s).getLast? = some (chr '/') := by
  rcases List.eq_nil_or_concat (s.splitOnP slash) with none | ⟨front, last, split⟩
  · exact absurd none (List.splitOnP_ne_nil slash s)
  · rw [List.concat_eq_append] at split
    have plain : chr '/' ∉ last := not_mem_of_piece (s := s) (by simp [split])
    rw [← slashed_splitOnP, split, getLast?_slashed front plain, List.getLast?_concat, Option.some.injEq]

/-- The components of components with slashes in front of them. -/
theorem segments_slashed (plain : ∀ name ∈ names, IsName name) : segments slash (slashed names) = names := by
  induction names with
  | nil => rfl
  | cons name names ih =>
    obtain ⟨here, later⟩ := List.forall_mem_cons.mp plain
    have inner : ∀ x ∈ name, slash x = false := fun x member =>
      slash_eq_false fun same => here.plain (same ▸ member)
    rw [slashed_cons, segments_cons_delimiter (by decide)]
    cases names with
    | nil =>
      rw [slashed, List.flatMap_nil, List.append_nil]
      exact segments_of_inner here.nonempty inner
    | cons other names =>
      have others := ih later
      rw [slashed_cons, segments_cons_delimiter (by decide)] at others
      rw [slashed_cons, segments_append_cons (by decide), others, segments_of_inner here.nonempty inner,
        List.singleton_append]

theorem namesWithoutDots_normalPath (plain : ∀ name ∈ names, IsName name) :
    namesWithoutDots (normalPath names) = names := by
  have all : names.filter (· ≠ [chr '.']) = names := by
    apply List.filter_eq_self.mpr
    intro name member
    simpa using (plain name member).notDot
  rw [namesWithoutDots, pathNames, normalPath_eq]
  split
  · next none => rw [none]; rfl
  · rw [segments_slashed plain, all]

theorem namesFrom_isName {cwd : CString} : ∀ name ∈ namesFrom cwd path, IsName name := by
  intro name member
  unfold namesFrom at member
  split at member
  · exact isName_of_mem member
  · exact (List.mem_append.mp member).elim isName_of_mem isName_of_mem

theorem namesWithoutDots_absoluteForm (cwd path : CString) :
    namesWithoutDots (absoluteForm cwd path) = namesFrom cwd path := by
  unfold absoluteForm namesFrom
  split
  · rfl
  · rw [namesWithoutDots, pathNames, segments_append_cons (by decide), List.filter_append]
    rfl

end Names

section Results

variable {cwd path tmp : CString}

/-- A path from the root that fits is left in normal form, but for a slash at its end. -/
theorem collapse_eq (absolute : IsAbsolute tmp) (fits : tmp.length < 1024) :
    collapse tmp = normalPath (namesWithoutDots tmp) ++
      if tmp.getLast? = some (chr '/') → namesWithoutDots tmp = [] then [] else [chr '/'] := by
  obtain ⟨s, rfl⟩ : ∃ s, tmp = chr '/' :: s := List.head?_eq_some_iff.mp absolute
  have loop : collapseLoop 0 (slashed (s.splitOnP slash)) = _ := collapseLoop_slashed (fun _ => not_mem_of_piece)
    (by rwa [slashed_splitOnP, Nat.zero_add])
  rw [slashed_splitOnP, ← names_eq] at loop
  have last := getLast?_splitOnP s
  rw [collapse, loop, normalPath_eq]
  by_cases none : namesWithoutDots (chr '/' :: s) = []
  · rw [if_pos (fun _ => none), none, if_pos rfl]
    by_cases ended : (s.splitOnP slash).getLast? = some []
    · rw [if_pos ended]
      rfl
    · rw [if_neg ended]
      rfl
  · obtain ⟨name, names, split⟩ := List.exists_cons_of_ne_nil none
    have nonempty (tail : CString) : slashed (name :: names) ++ tail ≠ [] := by simp [slashed]
    rw [split, if_neg (nonempty _), if_neg (List.cons_ne_nil name names)]
    by_cases ended : (s.splitOnP slash).getLast? = some []
    · rw [if_pos ended, if_neg fun all => List.cons_ne_nil name names (all (last.mp ended))]
    · rw [if_neg ended, if_pos fun slash => absurd (last.mpr slash) ended]

theorem collapseLoop_length_le (oi : ℕ) (s : CString) : (collapseLoop oi s).length ≤ s.length := by
  fun_induction collapseLoop oi s <;> simp only [List.length_cons, List.length_nil] at * <;> omega

theorem realpath_absolute (getcwd : Option CString) (absolute : IsAbsolute path) :
    realpath getcwd path = .resolved (collapse (path.take 1023)) :=
  if_pos absolute

theorem realpath_relative (relative : ¬ IsAbsolute path) :
    realpath (some cwd) path = if 1024 < cwd.length + 1 + path.length + 1 then .failed ENAMETOOLONG
      else .resolved (collapse (cwd ++ chr '/' :: path)) :=
  if_neg relative

theorem realpath_collapse (fits : (absoluteForm cwd path).length < 1024) :
    realpath (some cwd) path = .resolved (collapse (absoluteForm cwd path)) := by
  by_cases absolute : IsAbsolute path
  · rw [absoluteForm, if_pos absolute] at fits ⊢
    rw [realpath_absolute _ absolute, List.take_of_length_le (by omega)]
  · rw [absoluteForm, if_neg absolute] at fits ⊢
    rw [List.length_append, List.length_cons] at fits
    rw [realpath_relative absolute, if_neg (by omega)]

theorem absoluteForm_isAbsolute (rooted : IsAbsolute cwd) (path : CString) : IsAbsolute (absoluteForm cwd path) := by
  unfold absoluteForm
  split
  · next absolute => exact absolute
  · obtain ⟨s, rfl⟩ : ∃ s, cwd = chr '/' :: s := List.head?_eq_some_iff.mp rooted
    rfl

/-- What `realpath` makes of a path that fits. -/
theorem realpath_eq (rooted : IsAbsolute cwd) (fits : (absoluteForm cwd path).length < 1024) :
    realpath (some cwd) path = .resolved (normalPath (namesFrom cwd path) ++
      if EndsInComponent cwd path then [] else [chr '/']) := by
  rw [realpath_collapse fits, collapse_eq (absoluteForm_isAbsolute rooted path) fits, namesWithoutDots_absoluteForm]
  rfl

/-- A normal form is left as it is. -/
theorem realpath_normalPath {names : List CString} (plain : ∀ name ∈ names, IsName name)
    (fits : (normalPath names).length < 1024) (rooted : IsAbsolute cwd) :
    realpath (some cwd) (normalPath names) = .resolved (normalPath names) := by
  have absolute : IsAbsolute (normalPath names) := rfl
  have form : absoluteForm cwd (normalPath names) = normalPath names := if_pos absolute
  have same : namesFrom cwd (normalPath names) = names :=
    (if_pos absolute).trans (namesWithoutDots_normalPath plain)
  have ended : EndsInComponent cwd (normalPath names) := by
    rw [EndsInComponent, form, same]
    intro last
    rcases List.eq_nil_or_concat names with none | ⟨front, name, rfl⟩
    · exact none
    · rw [List.concat_eq_append] at last plain
      rw [normalPath_eq, if_neg (by simp), getLast?_slashed front (plain name (by simp)).plain] at last
      exact absurd last (plain name (by simp)).nonempty
  rw [realpath_eq rooted (form.symm ▸ fits), same, if_pos ended, List.append_nil]

/-- A slash behind a component is left as well. -/
theorem realpath_normalPath_slash {names : List CString} (plain : ∀ name ∈ names, IsName name) (nonempty : names ≠ [])
    (fits : (normalPath names ++ [chr '/']).length < 1024) (rooted : IsAbsolute cwd) :
    realpath (some cwd) (normalPath names ++ [chr '/']) = .resolved (normalPath names ++ [chr '/']) := by
  have absolute : IsAbsolute (normalPath names ++ [chr '/']) := rfl
  have form : absoluteForm cwd (normalPath names ++ [chr '/']) = normalPath names ++ [chr '/'] := if_pos absolute
  have same : namesFrom cwd (normalPath names ++ [chr '/']) = names := by
    rw [namesFrom, if_pos absolute, namesWithoutDots, pathNames, segments_concat_delimiter (by decide)]
    exact namesWithoutDots_normalPath plain
  have unended : ¬ EndsInComponent cwd (normalPath names ++ [chr '/']) := by
    rw [EndsInComponent, form, same]
    exact fun ended => nonempty (ended List.getLast?_concat)
  rw [realpath_eq rooted (form.symm ▸ fits), same, if_neg unended]

theorem collapse_length_lt (fits : tmp.length < 1024) : (collapse tmp).length < 1024 := by
  have copied := collapseLoop_length_le 0 tmp
  rw [collapse]
  split
  · exact Nat.lt_of_le_of_lt (Nat.le_refl 1) (by decide)
  · omega

/-- What `realpath` gives stands for itself. -/
theorem realpath_resolved (rooted : IsAbsolute cwd) (fits : (absoluteForm cwd path).length < 1024) {out : CString}
    (resolved : realpath (some cwd) path = .resolved out) : realpath (some cwd) out = .resolved out := by
  have short : out.length < 1024 := by
    rw [realpath_collapse fits, PathResult.resolved.injEq] at resolved
    exact resolved ▸ collapse_length_lt fits
  rw [realpath_eq rooted fits, PathResult.resolved.injEq] at resolved
  subst resolved
  by_cases ended : EndsInComponent cwd path
  · rw [if_pos ended, List.append_nil] at short ⊢
    exact realpath_normalPath namesFrom_isName short rooted
  · rw [if_neg ended] at short ⊢
    have nonempty : namesFrom cwd path ≠ [] := fun none => ended fun _ => none
    exact realpath_normalPath_slash namesFrom_isName nonempty short rooted

end Results

/-- `realpath` gives the normal form exactly if the path does not end in a slash behind a component. Paths of this
kind with the same components give the same string. What `realpath` gives stands for itself. -/
theorem realpath_normal_iff (cwd path : CString) (rooted : IsAbsolute cwd)
    (fits : (absoluteForm cwd path).length < 1024) :
    (realpath (some cwd) path = .resolved (normalPath (namesFrom cwd path)) ↔ EndsInComponent cwd path) ∧
      (EndsInComponent cwd path → ∀ other, (absoluteForm cwd other).length < 1024 → EndsInComponent cwd other →
        namesFrom cwd other = namesFrom cwd path → realpath (some cwd) other = realpath (some cwd) path) ∧
      ∀ out, realpath (some cwd) path = .resolved out → realpath (some cwd) out = .resolved out := by
  refine ⟨?_, ?_, fun out => realpath_resolved rooted fits⟩
  · rw [realpath_eq rooted fits, PathResult.resolved.injEq, List.append_right_eq_self]
    split <;> simp_all
  · intro ended other fitsOther endedOther same
    rw [realpath_eq rooted fits, realpath_eq rooted fitsOther, same, if_pos ended, if_pos endedOther]

theorem realpath_normal_dots :
    IsAbsolute (cstr "/home") ∧ (absoluteForm (cstr "/home") (cstr ".//a/.")).length < 1024 ∧
      realpath (some (cstr "/home")) (cstr ".//a/.") = .resolved (cstr "/home/a") := by
  have rooted : IsAbsolute (cstr "/home") := rfl
  have fits : (absoluteForm (cstr "/home") (cstr ".//a/.")).length < 1024 := by decide
  exact ⟨rooted, fits, (realpath_normal_iff _ _ rooted fits).1.mpr (by decide)⟩

/-- The slash at the end of `/a/` stays, so that it is another string than that of `/a`. -/
theorem realpath_trailing_slash :
    realpath (some (cstr "/")) (cstr "/a/") ≠ .resolved (normalPath (namesFrom (cstr "/") (cstr "/a/"))) ∧
      realpath (some (cstr "/")) (cstr "/a/") ≠ realpath (some (cstr "/")) (cstr "/a") := by
  decide

/-- A relative path and its spelling from the root have the same outcome exactly if that spelling fits. -/
theorem realpath_alike_iff (cwd p : CString) (rooted : IsAbsolute cwd) (relative : ¬ IsAbsolute p) :
    realpath (some cwd) p = realpath (some cwd) (cwd ++ chr '/' :: p) ↔ cwd.length + 1 + p.length < 1024 := by
  have absolute : IsAbsolute (cwd ++ chr '/' :: p) := by
    have form := absoluteForm_isAbsolute rooted p
    rwa [absoluteForm, if_neg relative] at form
  rw [realpath_relative relative, realpath_absolute _ absolute]
  constructor
  · intro same
    by_contra long
    rw [if_pos (by omega)] at same
    cases same
  · intro fits
    rw [if_neg (by omega), List.take_of_length_le (by rw [List.length_append, List.length_cons]; omega)]

theorem realpath_alike_home :
    realpath (some (cstr "/home")) (cstr "a/./b") = realpath (some (cstr "/home")) (cstr "/home/a/./b") :=
  (realpath_alike_iff (cstr "/home") (cstr "a/./b") rfl (by decide)).mpr (by decide)

/-- In the root directory, a name that is too long is refused, and its spelling from the root is cut. -/
theorem realpath_long {name : CString} (plain : chr '/' ∉ name) (long : 1023 ≤ name.length) :
    realpath (some [chr '/']) name = .failed ENAMETOOLONG ∧
      realpath (some [chr '/']) (chr '/' :: chr '/' :: name) = .resolved (chr '/' :: name.take 1021) := by
  constructor
  · have relative : ¬ IsAbsolute name := fun absolute => plain (List.mem_of_head? absolute)
    rw [realpath_relative relative, if_pos (by rw [List.length_singleton]; omega)]
  · have length : (name.take 1021).length = 1021 := List.length_take_of_le (by omega)
    have nonempty : name.take 1021 ≠ [] := fun none => by simp [none] at length
    have notDot : name.take 1021 ≠ [chr '.'] := fun dot => by simp [dot] at length
    have cut : (chr '/' :: chr '/' :: name).take 1023 = slashed [[], name.take 1021] := by simp [slashed]
    have loop : collapseLoop 0 (slashed [[], name.take 1021]) = _ := collapseLoop_slashed
      (by simpa using fun member => plain (List.mem_of_mem_take member)) (by simp [slashed, length])
    have absolute : IsAbsolute (chr '/' :: chr '/' :: name) := rfl
    rw [realpath_absolute _ absolute, collapse, cut, loop]
    simp [nonempty, notDot, slashed]

/-- A name of 1023 characters is refused, and its spelling from the root is cut. -/
theorem realpath_cut :
    realpath (some [chr '/']) (List.replicate 1023 (chr 'a')) = .failed ENAMETOOLONG ∧
      realpath (some [chr '/']) (chr '/' :: chr '/' :: List.replicate 1023 (chr 'a')) =
        .resolved (chr '/' :: (List.replicate 1023 (chr 'a')).take 1021) := by
  apply realpath_long
  · intro member
    exact absurd (List.eq_of_mem_replicate member) (by decide)
  · rw [List.length_replicate]

end CLite
