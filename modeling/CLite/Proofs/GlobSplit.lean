import CLite.Spec.GlobPaths
import Mathlib.Data.List.Chain

/-! # Cutting a pattern at its slashes

The loop of `glob` that cuts the pattern yields its components, up to the 64th. The text before a final
slash decides whether that slash is escaped, and counting the backslashes there decides the same.
-/

namespace CLite

variable {noescape : Bool}

/-! ## Escapes -/

section Spelling

variable {pattern : CString} {chars : List (Bool × CChar)}

theorem exists_spelling (noescape : Bool) (pattern : CString) : ∃ chars, Spelling noescape pattern chars := by
  fun_induction globUnescape noescape pattern with
  | case1 => exact ⟨[], .nil⟩
  | case2 x => exact ⟨_, .plain (fun _ => .inr rfl) .nil⟩
  | case3 x y s escape ih =>
    obtain ⟨chars, tail⟩ := ih
    obtain ⟨rfl, escapes⟩ := escape
    exact ⟨_, .escaped escapes tail⟩
  | case4 x y s unescaped ih =>
    obtain ⟨chars, tail⟩ := ih
    refine ⟨_, .plain (fun backslash => .inl ?_) tail⟩
    exact Bool.of_not_eq_false fun escapes => unescaped ⟨backslash, escapes⟩

theorem not_escape {x y : CChar} {s : CString} (unescaping : x = chr '\\' → noescape = true ∨ y :: s = []) :
    ¬ (x = chr '\\' ∧ noescape = false) := by
  rintro ⟨backslash, escapes⟩
  rcases unescaping backslash with ignored | ended
  · exact Bool.false_ne_true (escapes.symm.trans ignored)
  · cases ended

/-- `glob_unescape_to` writes the characters that are spelled. -/
theorem Spelling.unescape (spelling : Spelling noescape pattern chars) :
    globUnescape noescape pattern = chars.map Prod.snd := by
  induction spelling with
  | nil => rfl
  | escaped escapes _ ih => rw [globUnescape, if_pos ⟨rfl, escapes⟩, ih, List.map_cons]
  | @plain x rest chars unescaping _ ih =>
    cases rest with
    | nil => rw [List.map_cons, ← ih, globUnescape, globUnescape]
    | cons y s => rw [List.map_cons, ← ih, globUnescape, if_neg (not_escape unescaping)]

/-- `glob_has_meta` looks for a metacharacter that is not escaped. -/
theorem Spelling.hasMeta_iff (spelling : Spelling noescape pattern chars) :
    globHasMeta noescape pattern = true ↔ ∃ c, (false, c) ∈ chars ∧ Special c := by
  induction spelling with
  | nil => simp [globHasMeta]
  | escaped escapes _ ih =>
    rw [globHasMeta, if_pos ⟨rfl, escapes⟩, ih]
    simp
  | @plain x rest chars unescaping _ ih =>
    have here : (∃ c, (false, c) ∈ (false, x) :: chars ∧ Special c) ↔
        Special x ∨ ∃ c, (false, c) ∈ chars ∧ Special c := by
      simp only [List.mem_cons, Prod.mk.injEq, true_and, or_and_right, exists_or, exists_eq_left]
    rw [here, ← ih]
    cases rest with
    | nil => simp [globHasMeta, Special]
    | cons y s =>
      rw [globHasMeta, if_neg (not_escape unescaping)]
      split
      · next special => exact iff_of_true rfl (.inl special)
      · next ordinary => exact (or_iff_right ordinary).symm

end Spelling

/-! ## Pieces -/

theorem pieces_ne_nil (noescape : Bool) (p : CString) : pieces noescape p ≠ [] := by
  fun_induction pieces noescape p with
  | case1 | case2 | case3 => simp
  | case4 x other y q escape ih => simpa [List.modifyHead_eq_nil_iff] using ih
  | case5 x other y q unescaped ih => simpa [List.modifyHead_eq_nil_iff] using ih

theorem pieces_slash (noescape : Bool) (p : CString) :
    pieces noescape (chr '/' :: p) = [] :: pieces noescape p := by
  rw [pieces.eq_def]
  exact if_pos rfl

theorem keepFirst_cons {rest : List CString} (first : CString) (more : rest ≠ []) :
    keepFirst (first :: rest) = first :: dropInner rest := by
  cases rest with
  | nil => exact (more rfl).elim
  | cons next rest => rfl

theorem dropInner_cons {rest : List CString} (piece : CString) (more : rest ≠ []) :
    dropInner (piece :: rest) = if piece = [] then dropInner rest else piece :: dropInner rest := by
  cases rest with
  | nil => exact (more rfl).elim
  | cons next rest => rfl

/-- What the loop makes of the pieces that are left, given the components before them. -/
def resume (comp rest : List CString) : List CString :=
  if comp = [] then keepFirst rest else comp ++ dropInner rest

theorem resume_cons {comp rest : List CString} (start : CString) (more : rest ≠ []) :
    resume comp (start :: rest) = resume (if comp = [] ∨ start ≠ [] then comp ++ [start] else comp) rest := by
  rcases comp with _ | ⟨first, comp⟩
  · simp [resume, keepFirst_cons start more]
  · cases start with
    | nil => simp [resume, dropInner_cons [] more]
    | cons x start => simp [resume, dropInner_cons (x :: start) more]

theorem resume_singleton (comp : List CString) (start : CString) : resume comp [start] = comp ++ [start] := by
  cases comp with
  | nil => rfl
  | cons first comp => rfl

theorem take_resume {comp : List CString} (full : comp.length = GLOB_MAX_COMPONENTS) (rest : List CString) :
    (resume comp rest).take GLOB_MAX_COMPONENTS = comp := by
  have started : comp ≠ [] := by
    rintro rfl
    simp [GLOB_MAX_COMPONENTS] at full
  rw [resume, if_neg started, ← full, List.take_left]

theorem splitLoop_eq (p start : CString) (comp : List CString) (bound : comp.length ≤ GLOB_MAX_COMPONENTS) :
    splitLoop noescape p start comp =
      (resume comp ((pieces noescape p).modifyHead (start ++ ·))).take GLOB_MAX_COMPONENTS := by
  fun_induction splitLoop noescape p start comp with
  | case1 start comp room =>
    rw [pieces, List.modifyHead_cons, List.append_nil, resume_singleton]
    exact (List.take_of_length_le (by simpa using Nat.succ_le_of_lt room)).symm
  | case2 start comp full => exact (take_resume (by omega) _).symm
  | case3 p start comp room ih =>
    have unchanged : (pieces noescape p).modifyHead ([] ++ ·) = pieces noescape p := by
      cases pieces noescape p <;> rfl
    have grown : (if comp = [] ∨ start ≠ [] then comp ++ [start] else comp).length ≤ GLOB_MAX_COMPONENTS := by
      split
      · simpa using Nat.succ_le_of_lt room
      · exact bound
    rw [ih grown, unchanged, pieces_slash, List.modifyHead_cons, List.append_nil,
      resume_cons start (pieces_ne_nil noescape p)]
  | case4 x start comp room other ih =>
    rw [ih bound, pieces, pieces.eq_def]
    simp [other]
  | case5 x start comp room other y q escape ih =>
    rw [ih bound, pieces.eq_def noescape (x :: y :: q)]
    simp only [if_neg other, if_pos escape, List.modifyHead_modifyHead]
    congr 3
    funext s
    simp
  | case6 x start comp room other y q unescaped ih =>
    rw [ih bound, pieces.eq_def noescape (x :: y :: q)]
    simp only [if_neg other, if_neg unescaped, List.modifyHead_modifyHead]
    congr 3
    funext s
    simp
  | case7 x p start comp full => exact (take_resume (by omega) _).symm

/-- The loop finds the components of the pattern, up to the 64th. -/
theorem splitComponents_eq (noescape : Bool) (pattern : CString) :
    splitComponents noescape pattern = (components noescape pattern).take GLOB_MAX_COMPONENTS := by
  have unchanged : (pieces noescape pattern).modifyHead ([] ++ ·) = pieces noescape pattern := by
    cases pieces noescape pattern <;> rfl
  rw [splitComponents, splitLoop_eq pattern [] [] (by simp), unchanged]
  rfl

/-! ## Lengths -/

theorem globUnescape_length_le (noescape : Bool) (s : CString) :
    (globUnescape noescape s).length ≤ s.length := by
  fun_induction globUnescape noescape s with
  | case1 | case2 => simp
  | case3 x y s escape ih => simp only [List.length_cons]; omega
  | case4 x y s unescaped ih => simp only [List.length_cons] at ih ⊢; omega

theorem splitLoop_length {noescape : Bool} {p start : CString} {comp : List CString} {c : CString}
    (member : c ∈ splitLoop noescape p start comp) : c ∈ comp ∨ c.length ≤ start.length + p.length := by
  fun_induction splitLoop noescape p start comp with
  | case1 start comp =>
    rcases List.mem_append.mp member with old | new
    · exact .inl old
    · exact .inr (by simp [List.mem_singleton.mp new])
  | case2 => exact .inl member
  | case3 p start comp room ih =>
    rcases ih member with old | short
    · split at old
      · rcases List.mem_append.mp old with old | new
        · exact .inl old
        · exact .inr (by simp [List.mem_singleton.mp new])
      · exact .inl old
    · exact .inr (by simp only [List.length_cons, List.length_nil] at short ⊢; omega)
  | case4 x start comp room other ih =>
    exact (ih member).imp_right (by simp)
  | case5 x start comp room other y q escape ih =>
    exact (ih member).imp_right (by simp only [List.length_append, List.length_cons, List.length_nil]; omega)
  | case6 x start comp room other y q unescaped ih =>
    exact (ih member).imp_right (by simp only [List.length_append, List.length_cons, List.length_nil]; omega)
  | case7 => exact .inl member

theorem splitComponents_fit {noescape : Bool} {pattern : CString} (short : pattern.length < bufferSize) :
    ∀ comp ∈ splitComponents noescape pattern, (globUnescape noescape comp).length < bufferSize := by
  intro comp member
  have unescaped := globUnescape_length_le noescape comp
  have bound : comp.length ≤ pattern.length := by
    simpa using splitLoop_length member
  omega

/-! ## Empty components -/

theorem getLast?_dropInner (rest : List CString) : (dropInner rest).getLast? = rest.getLast? := by
  fun_induction dropInner rest with
  | case1 | case2 => rfl
  | case3 next rest ih => rw [ih, List.getLast?_cons_cons]
  | case4 piece next rest nonempty ih =>
    rw [List.getLast?_cons, ih, List.getLast?_cons_cons, List.getLast?_cons]
    rfl

theorem getLast?_keepFirst (rest : List CString) : (keepFirst rest).getLast? = rest.getLast? := by
  rcases rest with _ | ⟨first, _ | ⟨next, rest⟩⟩
  · rfl
  · rfl
  · rw [keepFirst, List.getLast?_cons, getLast?_dropInner, List.getLast?_cons_cons, List.getLast?_cons]
    rfl

theorem getLast?_modifyHead {rest : List CString} (ended : rest.getLast? ≠ some []) (before : CString) :
    (rest.modifyHead (before ++ ·)).getLast? ≠ some [] := by
  rcases rest with _ | ⟨first, _ | ⟨next, rest⟩⟩
  · simp
  · simp only [List.getLast?_singleton, ne_eq, Option.some.injEq] at ended
    simp [ended]
  · simpa using ended

/-- The last piece is empty only behind a slash. -/
theorem getLast?_pieces {p : CString} (nonempty : p ≠ []) (slashless : p.getLast? ≠ some (chr '/')) :
    (pieces noescape p).getLast? ≠ some [] := by
  fun_induction pieces noescape p with
  | case1 => exact (nonempty rfl).elim
  | case2 p ih =>
    have more : p ≠ [] := by
      rintro rfl
      exact slashless rfl
    obtain ⟨piece, rest, shape⟩ := List.exists_cons_of_ne_nil (pieces_ne_nil noescape p)
    rw [shape, List.getLast?_cons_cons, ← shape]
    apply ih more
    obtain ⟨x, q, rfl⟩ := List.exists_cons_of_ne_nil more
    rwa [List.getLast?_cons_cons] at slashless
  | case3 x other => simp
  | case4 x other y q escape ih =>
    rcases q with _ | ⟨z, q⟩
    · simp [pieces]
    · apply getLast?_modifyHead
      apply ih (by simp)
      rwa [List.getLast?_cons_cons, List.getLast?_cons_cons] at slashless
  | case5 x other y q unescaped ih =>
    apply getLast?_modifyHead
    apply ih (by simp)
    rwa [List.getLast?_cons_cons] at slashless

/-- A pattern that does not end in a slash has a last component. -/
theorem getLast?_components {pattern : CString} (nonempty : pattern ≠ [])
    (slashless : pattern.getLast? ≠ some (chr '/')) : (components noescape pattern).getLast? ≠ some [] := by
  rw [components, getLast?_keepFirst]
  exact getLast?_pieces nonempty slashless

theorem mem_dropInner {rest : List CString} {piece : CString} (member : piece ∈ rest) (nonempty : piece ≠ []) :
    piece ∈ dropInner rest := by
  fun_induction dropInner rest with
  | case1 | case2 => exact member
  | case3 next rest ih =>
    rcases List.mem_cons.mp member with empty | later
    · exact (nonempty empty).elim
    · exact ih later
  | case4 first next rest _ ih =>
    rcases List.mem_cons.mp member with rfl | later
    · exact List.mem_cons_self ..
    · exact List.mem_cons_of_mem _ (ih later)

theorem mem_components {pattern piece : CString} (member : piece ∈ pieces noescape pattern)
    (nonempty : piece ≠ []) : piece ∈ components noescape pattern := by
  rw [components]
  cases shape : pieces noescape pattern with
  | nil => exact (pieces_ne_nil noescape pattern shape).elim
  | cons first rest =>
    rw [shape] at member
    cases rest with
    | nil => exact member
    | cons next rest =>
      rcases List.mem_cons.mp member with rfl | later
      · exact List.mem_cons_self ..
      · exact List.mem_cons_of_mem _ (mem_dropInner later nonempty)

/-- A pattern whose pieces are all empty consists of slashes. -/
theorem globHasMeta_of_pieces_empty {p : CString} (empty : ∀ piece ∈ pieces noescape p, piece = []) :
    globHasMeta noescape p = false := by
  have absent (before : CString) (started : before ≠ []) {rest : List CString} (more : rest ≠ [])
      (empty : ∀ piece ∈ rest.modifyHead (before ++ ·), piece = []) : False := by
    obtain ⟨first, rest, rfl⟩ := List.exists_cons_of_ne_nil more
    have none := empty (before ++ first) (by simp)
    simp [started] at none
  fun_induction pieces noescape p with
  | case1 => rfl
  | case2 p ih =>
    have rest := ih fun piece member => empty piece (List.mem_cons_of_mem _ member)
    cases p with
    | nil =>
      rw [globHasMeta]
      decide
    | cons y p =>
      rw [globHasMeta, if_neg fun escape => absurd escape.1 (by decide), if_neg (by decide)]
      exact rest
  | case3 x other => exact absurd (empty [x] (by simp)) (by simp)
  | case4 x other y q escape ih => exact (absent [x, y] (by simp) (pieces_ne_nil noescape q) empty).elim
  | case5 x other y q unescaped ih => exact (absent [x] (by simp) (pieces_ne_nil noescape _) empty).elim

/-- In a list of components without its first, only the last one can be empty. -/
theorem dropInner_chain (rest : List CString) : (dropInner rest).IsChain fun comp _ => comp ≠ [] := by
  fun_induction dropInner rest with
  | case1 => exact .nil
  | case2 => exact .singleton _
  | case3 next rest ih => exact ih
  | case4 piece next rest nonempty ih => exact List.isChain_cons.mpr ⟨fun _ _ => nonempty, ih⟩

theorem components_chain (noescape : Bool) (pattern : CString) :
    (components noescape pattern).tail.IsChain fun comp _ => comp ≠ [] := by
  rw [components]
  rcases pieces noescape pattern with _ | ⟨first, _ | ⟨next, rest⟩⟩
  · exact .nil
  · exact .nil
  · exact dropInner_chain (next :: rest)

theorem exists_nonempty_component {pattern : CString} (wild : globHasMeta noescape pattern = true)
    (uncut : (splitComponents noescape pattern).length < GLOB_MAX_COMPONENTS) :
    ∃ comp ∈ splitComponents noescape pattern, comp ≠ [] := by
  have all : splitComponents noescape pattern = components noescape pattern := by
    rw [splitComponents_eq] at uncut ⊢
    rw [List.length_take] at uncut
    exact List.take_of_length_le (by omega)
  by_contra none
  push Not at none
  rw [all] at none
  have plain : globHasMeta noescape pattern = false := by
    apply globHasMeta_of_pieces_empty
    intro piece member
    by_contra nonempty
    exact nonempty (none piece (mem_components member nonempty))
  exact Bool.false_ne_true (plain.symm.trans wild)

/-- A pattern with metacharacters has a last component that is not empty; at most one empty component
follows it. -/
theorem splitComponents_shape {pattern : CString} (wild : globHasMeta noescape pattern = true) :
    ∃ front comp, comp ≠ [] ∧ (splitComponents noescape pattern = front ++ [comp] ∨
      splitComponents noescape pattern = front ++ [comp, []]) := by
  have chain : (splitComponents noescape pattern).tail.IsChain fun comp _ => comp ≠ [] := by
    rw [splitComponents_eq, ← List.drop_one, List.drop_take, List.drop_one]
    exact (components_chain noescape pattern).take _
  have some_text := exists_nonempty_component wild
  rcases List.eq_nil_or_concat (splitComponents noescape pattern) with none | ⟨init, final, shape⟩
  · simp [none, GLOB_MAX_COMPONENTS] at some_text
  · rcases eq_or_ne final [] with rfl | nonempty
    · rcases List.eq_nil_or_concat init with rfl | ⟨front, comp, rfl⟩
      · simp [shape, GLOB_MAX_COMPONENTS] at some_text
      · refine ⟨front, comp, ?_, .inr (by simp [shape])⟩
        rintro rfl
        cases front with
        | nil => simp [shape, GLOB_MAX_COMPONENTS] at some_text
        | cons first front => simp [shape, List.isChain_append] at chain
    · exact ⟨init, final, nonempty, .inl (by simp [shape])⟩

/-! ## The final slash -/

/-- The number of backslashes at the end. -/
def closingBackslashes (s : CString) : ℕ := (s.reverse.takeWhile (· = chr '\\')).length

theorem closingBackslashes_cons (x : CChar) (s : CString) :
    closingBackslashes (x :: s) =
      if closingBackslashes s = s.length ∧ x = chr '\\' then closingBackslashes s + 1
      else closingBackslashes s := by
  rw [closingBackslashes, closingBackslashes, List.reverse_cons, List.takeWhile_append]
  simp only [List.length_reverse]
  split
  · next all =>
    rw [all]
    rcases em (x = chr '\\') with rfl | other
    · simp
    · simp [other]
  · next some_other => simp [some_other]

theorem closingBackslashes_le (s : CString) : closingBackslashes s ≤ s.length := by
  have bound := (List.takeWhile_prefix (l := s.reverse) (· = chr '\\')).length_le
  rwa [List.length_reverse] at bound

/-- A character is escaped when an odd number of backslashes stands before it. -/
theorem pendingEscape_eq (s : CString) : pendingEscape s = decide (closingBackslashes s % 2 = 1) := by
  fun_induction pendingEscape s with
  | case1 => rfl
  | case2 x =>
    rw [closingBackslashes_cons]
    simp only [closingBackslashes, List.reverse_nil, List.takeWhile_nil, List.length_nil, true_and]
    split
    · next backslash => simp [backslash]
    · next other => simp [other]
  | case3 y p ih =>
    -- a pair is either inside the closing run or ends before it, and so keeps the parity
    have bound := closingBackslashes_le p
    rw [ih, closingBackslashes_cons, closingBackslashes_cons y p]
    simp only [List.length_cons, and_true]
    rw [decide_eq_decide]
    split_ifs <;> omega
  | case4 x y p other ih => rw [ih, closingBackslashes_cons x, if_neg fun both => other both.2]

/-- Counting backslashes finds the patterns that end in an unescaped slash. -/
theorem trailingSlash_of_endsInSlash {pattern : CString} (wild : globHasMeta noescape pattern = true)
    (ends : EndsInSlash noescape pattern) : trailingSlash noescape pattern = true := by
  obtain ⟨front, rfl, unescaped⟩ := ends
  have longer : front ≠ [] := by
    rintro rfl
    rw [List.nil_append, globHasMeta] at wild
    exact absurd wild (by decide)
  have counted : noescape = true ∨ closingBackslashes front % 2 = 0 := by
    apply unescaped.imp_right
    intro even
    rw [pendingEscape_eq, decide_eq_false_iff_not] at even
    omega
  have positive := List.length_pos_of_ne_nil longer
  simp only [trailingSlash, List.dropLast_concat, List.getLast?_concat, List.length_append,
    List.length_singleton, true_and, decide_eq_true_eq]
  exact ⟨by omega, counted⟩

end CLite
