import CLite.Proofs.GlobExpand
import Mathlib.Data.List.Nodup

/-! # The expansion without restrictions

When no flag restricts or marks directories and the paths fit their arrays, the frontier of the
components is the list of selections, and this list has every selected path once.
-/

namespace CLite

variable {fs : FileSystem} {opts : GlobOptions} {noescape : Bool} {fnflags : BitVec 32}

/-! ## Paths -/

theorem globJoin_eq (dir name : CString) :
    globJoin dir name =
      if (pathJoin dir name).length < bufferSize then some (pathJoin dir name) else none := by
  have written {need : ℕ} (path : CString) (counted : need = path.length + 1) :
      (if bufferSize < need then none else some path) =
        if path.length < bufferSize then some path else none := by
    split_ifs <;> first | rfl | omega
  unfold globJoin pathJoin
  split
  · exact written name rfl
  · split
    · exact written (chr '/' :: name) (by simp only [List.length_cons]; omega)
    · exact written (dir ++ chr '/' :: name) (by simp only [List.length_append, List.length_cons]; omega)

/-- The part of a path in front of the name of an entry. -/
def pathLead (dir : CString) : CString :=
  if dir = [] then [] else if dir = [chr '/'] then [chr '/'] else dir ++ [chr '/']

theorem pathJoin_eq (dir name : CString) : pathJoin dir name = pathLead dir ++ name := by
  unfold pathJoin pathLead
  split_ifs <;> simp

theorem pathLead_injective : Function.Injective pathLead := by
  apply Function.LeftInverse.injective (g := fun lead => if lead = [chr '/'] then lead else lead.dropLast)
  intro dir
  unfold pathLead
  split_ifs with empty root
  · exact empty.symm
  · exact root.symm
  · simp [empty]

theorem pathLead_closed (dir : CString) : pathLead dir = [] ∨ ∃ front, pathLead dir = front ++ [chr '/'] := by
  unfold pathLead
  split_ifs
  · exact .inl rfl
  · exact .inr ⟨[], rfl⟩
  · exact .inr ⟨dir, rfl⟩

theorem pathJoin_left_injective (name : CString) : Function.Injective (pathJoin · name) := by
  intro first second same
  simp only [pathJoin_eq] at same
  exact pathLead_injective (List.append_cancel_right same)

/-- What a lead ends in holds a slash. -/
theorem slash_mem_of_lead {dir shorter text : CString} (split : pathLead dir = shorter ++ text)
    (nonempty : text ≠ []) : chr '/' ∈ text := by
  rcases pathLead_closed dir with empty | ⟨front, closed⟩
  · rw [empty] at split
    exact (nonempty (List.append_eq_nil_iff.mp split.symm).2).elim
  · have last : (shorter ++ text).getLast? = some (chr '/') := by
      rw [← split, closed, List.getLast?_concat]
    rw [List.getLast?_append_of_ne_nil _ nonempty] at last
    exact List.mem_of_getLast? last

/-- A name without a slash is determined by the path that ends in it. -/
theorem pathJoin_inj {dir dir' name name' : CString} (plain : chr '/' ∉ name) (plain' : chr '/' ∉ name')
    (same : pathJoin dir name = pathJoin dir' name') : dir = dir' ∧ name = name' := by
  rw [pathJoin_eq, pathJoin_eq] at same
  -- what one lead has beyond the other is part of a name
  rcases List.append_eq_append_iff.mp same with ⟨text, longer, rfl⟩ | ⟨text, longer, rfl⟩
  · obtain rfl : text = [] := by
      by_contra nonempty
      exact plain (List.mem_append_left _ (slash_mem_of_lead longer nonempty))
    exact ⟨pathLead_injective (by simpa using longer.symm), rfl⟩
  · obtain rfl : text = [] := by
      by_contra nonempty
      exact plain' (List.mem_append_left _ (slash_mem_of_lead longer nonempty))
    exact ⟨pathLead_injective (by simpa using longer), rfl⟩

/-! ## Levels -/

/-- An entry contributes a path when it matches, fits and passes the test for directories. -/
theorem wildcardPath_eq_ite (last : Bool) (comp dir name : CString) :
    wildcardPath fs opts last comp dir name =
      if Eligible opts.fnflags comp name ∧ (pathJoin dir name).length < bufferSize ∧
          (last = false ∨ (opts.trailingSlash || opts.onlydir) = false ∨ globIsDir fs (pathJoin dir name)) then
        some (if (last ∧ opts.markdirs ∧ globIsDir fs (pathJoin dir name)) ∧
            (pathJoin dir name).length + 2 ≤ bufferSize then pathJoin dir name ++ [chr '/']
          else pathJoin dir name)
      else none := by
  unfold wildcardPath
  split
  · next special => rw [if_neg fun passes => special.elim passes.1.1 passes.1.2.1]
  · next ordinary =>
    split
    · next other => rw [if_neg fun passes => other passes.1.2.2]
    · next same =>
      have eligible : Eligible opts.fnflags comp name :=
        ⟨fun dot => ordinary (.inl dot), fun dots => ordinary (.inr dots), not_not.mp same⟩
      rw [globJoin_eq]
      split_ifs with fits passes <;> simp_all

/-- No flag or slash restricts the results to directories or marks them. -/
structure GlobOptions.Unrestricted (opts : GlobOptions) : Prop where
  markdirs : opts.markdirs = false
  onlydir : opts.onlydir = false
  trailingSlash : opts.trailingSlash = false

theorem hasFlag_of_permitted {allowed flag : BitVec 32} (permitted : flags &&& ~~~allowed = 0)
    (other : ~~~allowed &&& flag = flag) : hasFlag flags flag = false := by
  have absent : flags &&& flag = 0 := by
    rw [← other, ← BitVec.and_assoc, permitted]
    exact BitVec.zero_and
  simp [hasFlag, absent]

theorem unrestricted_of_permitted (permitted : flags &&& ~~~(GLOB_NOESCAPE ||| GLOB_PERIOD) = 0)
    (unclosed : pattern.getLast? ≠ some (chr '/')) : (globOptions pattern flags).Unrestricted where
  markdirs := hasFlag_of_permitted permitted (by decide)
  onlydir := hasFlag_of_permitted permitted (by decide)
  trailingSlash := by simp [globOptions, trailingSlash, unclosed]

theorem wildcardPath_eq (free : opts.Unrestricted) {last : Bool} {comp dir name : CString}
    (fits : Eligible opts.fnflags comp name → (pathJoin dir name).length < bufferSize) :
    wildcardPath fs opts last comp dir name =
      if Eligible opts.fnflags comp name then some (pathJoin dir name) else none := by
  rw [wildcardPath_eq_ite]
  simp [free.markdirs, free.onlydir, free.trailingSlash, and_iff_left_of_imp fits]

theorem literalPath_eq (free : opts.Unrestricted) {last : Bool} {lit dir : CString}
    (fits : (pathJoin dir lit).length < bufferSize) :
    (literalPath fs opts last lit dir).toList =
      [pathJoin dir lit].filter fun path => if last then (fs.lstat path).isSome else globIsDir fs path := by
  unfold literalPath
  rw [globJoin_eq, if_pos fits]
  cases last with
  | false => cases present : globIsDir fs (pathJoin dir lit) <;> simp [present]
  | true =>
    cases present : fs.lstat (pathJoin dir lit) <;>
      simp [present, free.markdirs, free.onlydir, free.trailingSlash]

theorem levelPaths_eq_choices (free : opts.Unrestricted) (last : Bool) {comp dir : CString}
    (fits : ∀ path ∈ candidates fs opts.noescape opts.fnflags comp dir, path.length < bufferSize) :
    levelPaths fs opts last comp dir = choices fs opts.noescape opts.fnflags last comp dir := by
  unfold levelPaths choices
  split
  · next wild =>
    rw [candidates, if_pos wild] at fits ⊢
    rw [← List.filterMap_eq_map, List.filterMap_filter]
    apply List.filterMap_congr
    intro name listed
    rw [wildcardPath_eq free fun eligible => fits _ (List.mem_map_of_mem (List.mem_filter.mpr
      ⟨listed, decide_eq_true eligible⟩))]
    simp
  · next literal =>
    rw [candidates, if_neg literal] at fits ⊢
    exact literalPath_eq free (fits _ (List.mem_singleton_self _))

/-- The levels without their empty components are the selections, and they are within bounds. -/
theorem frontier_eq_selections (free : opts.Unrestricted) {comps dirs : List CString}
    (ended : comps.getLast? ≠ some [])
    (limits : WithinLimits fs opts.noescape opts.fnflags (comps.filter (· ≠ [])) dirs) :
    LevelsBounded fs opts comps dirs ∧
      frontier fs opts false comps dirs =
        selections fs opts.noescape opts.fnflags (comps.filter (· ≠ [])) dirs := by
  induction comps generalizing dirs with
  | nil => exact ⟨trivial, rfl⟩
  | cons comp rest ih =>
    have endedRest : rest.getLast? ≠ some [] := by
      cases rest with
      | nil => simp
      | cons next rest => rwa [List.getLast?_cons_cons] at ended
    rw [LevelsBounded, frontier]
    split
    · next empty =>
      rw [List.filter_cons_of_neg (by simp [empty])] at limits ⊢
      exact ih endedRest limits
    · next nonempty =>
      have final : decide (rest.filter (· ≠ []) = []) = decide (rest = []) := by
        rw [decide_eq_decide]
        constructor
        · intro none
          by_contra more
          have last : rest.getLast more = [] := by
            simpa using List.filter_eq_nil_iff.mp none _ (List.getLast_mem more)
          exact endedRest (by rw [List.getLast?_eq_some_getLast more, last])
        · rintro rfl
          rfl
      rw [List.filter_cons_of_pos (by simp [nonempty])] at limits ⊢
      rw [WithinLimits, final] at limits
      obtain ⟨fits, few, limits⟩ := limits
      have level : dirs.flatMap (levelPaths fs opts (rest = []) comp) =
          dirs.flatMap (choices fs opts.noescape opts.fnflags (rest = []) comp) :=
        List.flatMap_congr fun dir inside => levelPaths_eq_choices free _ (fits dir inside)
      rw [Bool.not_false, Bool.true_and, level, selections, final]
      exact ⟨⟨few, (ih endedRest limits).1⟩, (ih endedRest limits).2⟩

theorem selections_length_le {comps dirs : List CString} (start : dirs.length ≤ GLOB_MAX_MATCHES)
    (limits : WithinLimits fs noescape fnflags comps dirs) :
    (selections fs noescape fnflags comps dirs).length ≤ GLOB_MAX_MATCHES := by
  induction comps generalizing dirs with
  | nil => exact start
  | cons comp rest ih => exact ih limits.2.1 limits.2.2

/-! ## Selected paths -/

theorem mem_choices {last : Bool} {comp dir path : CString} :
    path ∈ choices fs noescape fnflags last comp dir ↔
      (globHasMeta noescape comp = true ∧
        ∃ name ∈ entries fs dir, Eligible fnflags comp name ∧ pathJoin dir name = path) ∨
      (globHasMeta noescape comp = false ∧ path = pathJoin dir (globUnescape noescape comp) ∧
        (if last then (fs.lstat path).isSome else globIsDir fs path) = true) := by
  cases wild : globHasMeta noescape comp with
  | false => simp [choices, candidates, wild]
  | true => simp [choices, candidates, wild, and_assoc]

/-- The list of selections has exactly the selected paths. -/
theorem mem_selections {comps dirs : List CString} {path : CString} :
    path ∈ selections fs noescape fnflags comps dirs ↔
      ∃ dir ∈ dirs, Selected fs noescape fnflags comps dir path := by
  induction comps generalizing dirs with
  | nil =>
    constructor
    · exact fun member => ⟨path, member, .done path⟩
    · rintro ⟨dir, member, ⟨⟩⟩
      exact member
  | cons comp rest ih =>
    rw [selections, ih]
    simp only [List.mem_flatMap, mem_choices]
    constructor
    · rintro ⟨next, ⟨dir, inside, ⟨wild, name, listed, eligible, rfl⟩ | ⟨literal, rfl, present⟩⟩, tail⟩
      · exact ⟨dir, inside, .entry wild listed eligible tail⟩
      · cases rest with
        | nil =>
          cases tail
          exact ⟨dir, inside, .file literal (by simpa using present)⟩
        | cons second rest =>
          exact ⟨dir, inside, .directory literal (by simp) (by simpa using present) tail⟩
    · rintro ⟨dir, inside, selected⟩
      cases selected with
      | entry wild listed eligible tail =>
        exact ⟨_, ⟨dir, inside, .inl ⟨wild, _, listed, eligible, rfl⟩⟩, tail⟩
      | directory literal inner isDir tail =>
        exact ⟨_, ⟨dir, inside, .inr ⟨literal, rfl, by simpa [inner] using isDir⟩⟩, tail⟩
      | file literal present =>
        exact ⟨_, ⟨dir, inside, .inr ⟨literal, rfl, by simpa using present⟩⟩, .done _⟩

/-! ## No path twice -/

theorem entries_nodup (fs : FileSystem) (dir : CString) : (entries fs dir).Nodup := by
  unfold entries
  cases listing : fs.opendir (if dir = [] then [chr '.'] else dir) with
  | none => exact List.nodup_nil
  | some names => exact fs.names_distinct _ _ listing

theorem entries_plain {dir name : CString} (listed : name ∈ entries fs dir) : chr '/' ∉ name := by
  unfold entries at listed
  cases listing : fs.opendir (if dir = [] then [chr '.'] else dir) with
  | none => simp [listing] at listed
  | some names =>
    rw [listing] at listed
    exact fs.names_plain _ _ listing name listed

theorem choices_nodup (last : Bool) (comp dir : CString) :
    (choices fs noescape fnflags last comp dir).Nodup := by
  unfold choices candidates
  split
  · apply List.Nodup.map_on
    · intro name listed other listed' same
      have plain := entries_plain (List.mem_of_mem_filter listed)
      have plain' := entries_plain (List.mem_of_mem_filter listed')
      exact (pathJoin_inj plain plain' same).2
    · exact (entries_nodup fs dir).filter _
  · exact (List.nodup_singleton _).filter _

/-- Different directories contribute different paths. -/
theorem dir_eq_of_mem_choices {last : Bool} {comp dir dir' path : CString}
    (first : path ∈ choices fs noescape fnflags last comp dir)
    (second : path ∈ choices fs noescape fnflags last comp dir') : dir = dir' := by
  rcases mem_choices.mp first with ⟨wild, name, listed, -, rfl⟩ | ⟨literal, rfl, -⟩
  · rcases mem_choices.mp second with ⟨-, name', listed', -, same⟩ | ⟨literal, -⟩
    · exact (pathJoin_inj (entries_plain listed') (entries_plain listed) same).1.symm
    · simp [wild] at literal
  · rcases mem_choices.mp second with ⟨wild, -⟩ | ⟨-, same, -⟩
    · simp [wild] at literal
    · exact pathJoin_left_injective _ same

theorem selections_nodup (comps : List CString) {dirs : List CString} (distinct : dirs.Nodup) :
    (selections fs noescape fnflags comps dirs).Nodup := by
  induction comps generalizing dirs with
  | nil => exact distinct
  | cons comp rest ih =>
    rw [selections]
    apply ih
    apply List.nodup_flatMap.mpr
    refine ⟨fun dir _ => choices_nodup _ comp dir, distinct.imp fun different => ?_⟩
    intro path first second
    exact different (dir_eq_of_mem_choices first second)

end CLite
