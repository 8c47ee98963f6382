import CLite.Lib.KeyedArray
import CLite.Lib.LongestPrefix
import CLite.Spec.EnvMap
import Mathlib.Data.List.GetD
import Mathlib.Data.List.TakeWhile

/-! # Entries of the environment

The test of an entry is the comparison of its name, so `getenv` is the search of a keyed array. A new object
changes no entry. A terminator in place of the equals sign of a string hides no entry but that string itself.
-/

namespace CLite

open ByteMemory KeyedArray LongestPrefix

section Texts

theorem all_ne_of_notMem {α : Type*} [DecidableEq α] {a : α} {xs : List α} (absent : a ∉ xs) :
    ∀ x ∈ xs, decide (x ≠ a) = true := by
  intro x member
  simp only [decide_eq_true_eq]
  rintro rfl
  exact absent member

theorem nameOf_append {name value : List Byte} (plain : equalsSign ∉ name) :
    nameOf (name ++ equalsSign :: value) = name := by
  rw [nameOf, List.takeWhile_append_of_pos (all_ne_of_notMem plain), List.takeWhile_cons_of_neg (by simp),
    List.append_nil]

theorem valueOf_append {name value : List Byte} (plain : equalsSign ∉ name) :
    valueOf (name ++ equalsSign :: value) = value := by
  rw [valueOf, List.dropWhile_append_of_pos (all_ne_of_notMem plain), List.dropWhile_cons_of_neg (by simp),
    List.tail_cons]

theorem equalsSign_notMem_nameOf (text : List Byte) : equalsSign ∉ nameOf text := by
  intro member
  simpa using List.mem_takeWhile_imp member

theorem text_split {text : List Byte} (form : equalsSign ∈ text) :
    text = nameOf text ++ equalsSign :: valueOf text := by
  obtain ⟨before, after, rfl, plain⟩ := List.eq_append_cons_of_mem form
  rw [nameOf_append plain, valueOf_append plain]

theorem name_prefix_iff {name text : List Byte} (plain : equalsSign ∉ name) (form : equalsSign ∈ text) :
    name ++ [equalsSign] <+: text ↔ nameOf text = name := by
  constructor
  · rintro ⟨rest, rfl⟩
    rw [List.append_assoc, List.singleton_append, nameOf_append plain]
  · intro same
    rw [text_split form, same]
    exact ⟨valueOf text, by simp⟩

end Texts

section Reading

variable {objects : Objects}

theorem zero_notMem_textAt (objects : Objects) (p : Pointer) : 0 ∉ textAt objects p := by
  intro member
  simpa using List.mem_takeWhile_imp member

theorem textAt_add {p : Pointer} {n : ℕ} (within : n ≤ (textAt objects p).length) :
    textAt objects (p.add n) = (textAt objects p).drop n := by
  have bytes : bytesAt objects (p.add n) = (bytesAt objects p).drop n := by
    simp [bytesAt, Pointer.add, List.drop_drop]
  simp only [textAt, bytes] at within ⊢
  clear bytes
  generalize bytesAt objects p = whole at within ⊢
  induction n generalizing whole with
  | zero => rfl
  | succ n ih =>
    cases whole with
    | nil => simp
    | cons x rest =>
      by_cases stop : x = 0
      · simp [stop] at within
      · have kept : (x :: rest).takeWhile (· ≠ 0) = x :: rest.takeWhile (· ≠ 0) :=
          List.takeWhile_cons_of_pos (by simpa using stop)
        rw [kept, List.length_cons] at within
        rw [kept, List.drop_succ_cons, List.drop_succ_cons, ih rest (by omega)]

theorem strncmp_cons (b c : Byte) (bytes rest : List Byte) (n : ℕ) :
    strncmp (b :: bytes) (c :: rest) (n + 1) =
      if b ≠ c ∨ b = 0 then (b.toNat : ℤ) - c.toNat else strncmp bytes rest n := rfl

theorem strncmp_eq_zero_iff {name bytes : List Byte} (nonzero : 0 ∉ name) :
    strncmp bytes name name.length = 0 ↔ name <+: bytes := by
  induction name generalizing bytes with
  | nil => simp [strncmp]
  | cons c rest ih =>
    obtain ⟨head, later⟩ := not_or.mp (mt List.mem_cons.mpr nonzero)
    cases bytes with
    | nil =>
      have positive : c.toNat ≠ 0 := fun same => head (BitVec.eq_of_toNat_eq (by simpa using same.symm))
      simpa [strncmp] using positive
    | cons b bytes =>
      rw [List.cons_prefix_cons, List.length_cons, strncmp_cons]
      by_cases differs : b ≠ c ∨ b = 0
      · rw [if_pos differs]
        have distinct : b ≠ c := by
          rintro rfl
          exact differs.elim (fun differs => differs rfl) (fun zero => head zero.symm)
        have values : b.toNat ≠ c.toNat := fun same => distinct (BitVec.eq_of_toNat_eq same)
        exact iff_of_false (by omega) (fun same => distinct same.1.symm)
      · rw [if_neg differs, ih later]
        obtain ⟨equal, -⟩ := not_or.mp differs
        simp [not_not.mp equal]

theorem entryMatches_iff {name : List Byte} {entry : Pointer} (nonzero : 0 ∉ name) :
    entryMatches objects name entry = true ↔ name ++ [equalsSign] <+: bytesAt objects entry := by
  simp only [entryMatches, decide_eq_true_eq, strncmp_eq_zero_iff nonzero]
  constructor
  · rintro ⟨⟨rest, whole⟩, sign⟩
    rw [← whole] at sign ⊢
    cases rest with
    | nil => simp [equalsSign] at sign
    | cons x rest =>
      have first : x = equalsSign := by simpa using sign
      exact ⟨rest, by simp [first]⟩
  · rintro ⟨rest, whole⟩
    rw [← whole]
    exact ⟨⟨equalsSign :: rest, by simp⟩, by simp⟩

/-- The test looks for the name and an equals sign at the start of the string. -/
theorem entryMatches_iff_text {name : List Byte} {entry : Pointer} (nonzero : 0 ∉ name) :
    entryMatches objects name entry = true ↔ name ++ [equalsSign] <+: textAt objects entry := by
  have all : ∀ x ∈ name ++ [equalsSign], decide (x ≠ 0) = true := by
    intro x member
    rcases List.mem_append.mp member with inside | last
    · exact all_ne_of_notMem nonzero x inside
    · rw [List.mem_singleton.mp last]
      decide
  rw [entryMatches_iff nonzero, textAt, prefix_takeWhile_iff all]

/-- On an entry of the right form the test compares the name. -/
theorem entryMatches_iff_name {name : List Byte} {entry : Pointer} (validName : ValidName name)
    (form : equalsSign ∈ textAt objects entry) :
    entryMatches objects name entry = true ↔ nameOf (textAt objects entry) = name := by
  rw [entryMatches_iff_text validName.2.2, name_prefix_iff validName.2.1 form]

end Reading

section Answers

variable {st : Environ}

/-- `getenv` searches the array by name. -/
theorem answer_eq_lookup (valid : st.Valid) {name : List Byte} (validName : ValidName name) :
    st.answer name =
      (lookup st.name st.entries name).map fun entry => valueOf (textAt st.objects entry) := by
  have search : st.entries.find? (entryMatches st.objects name) = lookup st.name st.entries name := by
    rw [lookup, ← List.head?_filter, ← List.head?_filter]
    refine congrArg List.head? (List.filter_congr fun entry member => ?_)
    rw [Bool.eq_iff_iff, entryMatches_iff_name validName (valid.form entry member).1]
    exact decide_eq_true_iff.symm
  rw [Environ.answer, getenvLoop, search, Option.map_map]
  cases found : lookup st.name st.entries name with
  | none => rfl
  | some entry =>
    obtain ⟨member, named⟩ := mem_of_lookup found
    have split := text_split (valid.form entry member).1
    have own : nameOf (textAt st.objects entry) = name := named
    rw [own] at split
    have within : name.length + 1 ≤ (textAt st.objects entry).length := by
      rw [split]
      simp
    simp only [Option.map_some, Function.comp_apply, textAt_add within]
    conv_lhs => rw [split]
    simp [List.drop_append]

end Answers

section Objects

variable {objects more : Objects}

theorem bytesAt_append {p : Pointer} (inside : p.object < objects.length) :
    bytesAt (objects ++ more) p = bytesAt objects p := by
  rw [bytesAt, bytesAt, List.getD_append _ _ _ _ inside]

theorem object_lt_of_mem {p : Pointer} {x : Byte} (member : x ∈ textAt objects p) :
    p.object < objects.length := by
  by_contra outside
  have missing : objects.getD p.object [] = [] := List.getD_eq_default _ _ (by omega)
  rw [textAt, bytesAt, missing] at member
  simp at member

/-- The string of a new entry. -/
theorem textAt_new_entry {text : List Byte} (nonzero : 0 ∉ text) :
    textAt (objects ++ [text ++ [0]]) ⟨objects.length, 0⟩ = text := by
  have bytes : bytesAt (objects ++ [text ++ [0]]) ⟨objects.length, 0⟩ = text ++ [0] := by
    rw [bytesAt, List.getD_append_right _ _ _ _ le_rfl]
    simp
  rw [textAt, bytes, List.takeWhile_append_of_pos (all_ne_of_notMem nonzero)]
  simp

theorem bytesAt_poke (p q : Pointer) (byte : Byte) :
    bytesAt (poke objects p byte) q =
      if q.object = p.object then ((objects.getD q.object []).set p.offset byte).drop q.offset
      else bytesAt objects q := by
  simp only [bytesAt, poke, List.getD_eq_getElem?_getD, List.getElem?_modify]
  split
  next same =>
    rw [if_pos same.symm]
    cases objects[q.object]? <;> simp
  next differs =>
    rw [if_neg (Ne.symm differs)]
    simp

theorem poke_length (p : Pointer) (byte : Byte) : (poke objects p byte).length = objects.length := by
  simp [poke]

/-- Putting the equals sign back leaves the objects as they were, with the new ones. -/
theorem poke_restore {p : Pointer} {byte other : Byte} (inside : p.object < objects.length)
    (held : (objects.getD p.object [])[p.offset]? = some byte) :
    poke (poke objects p other ++ more) p byte = objects ++ more := by
  rw [List.getD_eq_getElem _ _ inside] at held
  obtain ⟨bound, holds⟩ := List.getElem?_eq_some_iff.mp held
  apply List.ext_getElem?
  intro i
  rw [poke, List.getElem?_modify]
  rcases lt_or_ge i objects.length with old | new
  · rw [List.getElem?_append_left (by rwa [poke_length]), List.getElem?_append_left old, poke,
      List.getElem?_modify, List.getElem?_eq_getElem old]
    split
    next same =>
      subst same
      simp [← holds]
    next => simp
  · have other : p.object ≠ i := by omega
    rw [List.getElem?_append_right (by rwa [poke_length]), List.getElem?_append_right new, poke_length]
    simp [other]

end Objects

section Hidden

variable {objects : Objects} {string : Pointer}

theorem idxOf_equalsSign {text : List Byte} (form : equalsSign ∈ text) :
    text.idxOf equalsSign = (nameOf text).length := by
  conv_lhs => rw [text_split form]
  rw [List.idxOf_append_of_notMem (equalsSign_notMem_nameOf text), List.idxOf_cons_self, Nat.add_zero]

/-- The byte that `putenv` overwrites is the equals sign. -/
theorem byte_at_sign (form : equalsSign ∈ textAt objects string) :
    (objects.getD string.object [])[string.offset + (nameOf (textAt objects string)).length]? =
      some equalsSign := by
  obtain ⟨rest, whole⟩ : textAt objects string <+: bytesAt objects string := List.takeWhile_prefix _
  have sign : (textAt objects string)[(nameOf (textAt objects string)).length]? = some equalsSign := by
    conv_lhs => rw [text_split form, nameOf_append (equalsSign_notMem_nameOf _)]
    simp
  rw [← List.getElem?_drop]
  show (bytesAt objects string)[_]? = _
  rw [← whole, List.getElem?_append_left (List.getElem?_eq_some_iff.mp sign).1, sign]

/-- With its equals sign overwritten, a string hides no entry but itself: the test of another entry does not
come to that byte, or fails there with either value. -/
theorem entryMatches_hidden {entry : Pointer} (form : equalsSign ∈ textAt objects string)
    (nonzero : 0 ∉ nameOf (textAt objects string)) (other : entry ≠ string) :
    entryMatches (poke objects (string.add (nameOf (textAt objects string)).length) 0)
        (nameOf (textAt objects string)) entry =
      entryMatches objects (nameOf (textAt objects string)) entry := by
  have sign := byte_at_sign form
  have plain := equalsSign_notMem_nameOf (textAt objects string)
  generalize nameOf (textAt objects string) = name at *
  rw [Bool.eq_iff_iff, entryMatches_iff nonzero, entryMatches_iff nonzero, bytesAt_poke]
  split
  next same =>
    have offsets : entry.offset ≠ string.offset := by
      intro equal
      apply other
      cases entry
      cases string
      exact Pointer.mk.injEq .. ▸ ⟨same, equal⟩
    have object : objects.getD entry.object [] = objects.getD string.object [] :=
      congrArg (objects.getD · []) same
    rw [bytesAt, object]
    simp only [List.prefix_iff_getElem?, List.getElem?_drop, Pointer.add]
    by_cases hit : ∃ i, i < name.length ∧ entry.offset + i = string.offset + name.length
    · obtain ⟨i, within, place⟩ := hit
      have member : name[i] ∈ name := List.getElem_mem within
      have bound : i < (name ++ [equalsSign]).length := by
        rw [List.length_append]
        omega
      refine iff_of_false ?_ ?_
      · intro matched
        have read := matched i bound
        rw [place, List.getElem?_set_self (List.getElem?_eq_some_iff.mp sign).1,
          List.getElem_append_left within] at read
        exact nonzero (Option.some.inj read ▸ member)
      · intro matched
        have read := matched i bound
        rw [place, sign, List.getElem_append_left within] at read
        exact plain (Option.some.inj read ▸ member)
    · refine forall₂_congr fun i bound => ?_
      have apart : string.offset + name.length ≠ entry.offset + i := by
        intro place
        rw [List.length_append, List.length_singleton] at bound
        exact hit ⟨i, by omega, place.symm⟩
      rw [List.getElem?_set_ne apart]
  next => rfl

end Hidden

end CLite
