import CLite.Proofs.EnvEntries

/-! # `unsetenv` on arbitrary arrays

The array that a program starts with may hold a name several times. `unsetenv` closes the gap that the first of its
entries leaves and returns, so that `getenv` finds the second one from then on. No other name is touched.
-/

namespace CLite

open ByteMemory KeyedArray LongestPrefix

section InPlace

variable {objects : Objects} {name : List Byte} {array : List (Option Pointer)} {entries : List Pointer}

theorem shiftLoop_entries (entry : Pointer) (entries : List Pointer) (behind : List (Option Pointer)) :
    shiftLoop (some entry :: (entries.map some ++ none :: behind)) = entries.map some ++ none :: none :: behind := by
  induction entries generalizing entry with
  | nil => rfl
  | cons next entries ih =>
    rw [List.map_cons, List.cons_append, shiftLoop, ih]
    rfl

/-- In the array, `unsetenv` removes the first entry that the test finds. -/
theorem unsetenvLoop_holds (holds : HoldsEntries array entries) :
    HoldsEntries (unsetenvLoop objects name array) (entries.eraseP (entryMatches objects name)) := by
  obtain ⟨behind, rfl⟩ := holds
  induction entries with
  | nil => exact ⟨behind, rfl⟩
  | cons entry entries ih =>
    rw [List.map_cons, List.cons_append, unsetenvLoop]
    split
    · next found =>
      rw [List.eraseP_cons_of_pos found, shiftLoop_entries]
      exact ⟨none :: behind, rfl⟩
    · next differs =>
      obtain ⟨behind', same⟩ := ih
      rw [List.eraseP_cons_of_neg differs, same]
      exact ⟨behind', rfl⟩

/-- The loop leaves the array of the entries that `unsetenv` gives. -/
theorem unsetenvLoop_refines {st : Environ} {name : Pointer} (validName : ValidName (textAt st.objects name))
    (holds : HoldsEntries array st.entries) :
    HoldsEntries (unsetenvLoop st.objects (textAt st.objects name) array) (unsetenv st name).2.entries := by
  have removed : (unsetenv st name).2.entries =
      st.entries.eraseP (entryMatches st.objects (textAt st.objects name)) := by
    cases environ : st.environ with
    | none => simp [unsetenv, Environ.entries, environ]
    | some entries => simp [unsetenv, Environ.entries, environ, validName.1, validName.2.1]
  rw [removed]
  exact unsetenvLoop_holds holds

end InPlace

section Removal

variable {st : Environ} {name asked : List Byte}

/-- An entry of a valid name is found for no other string, except the starts of entries of that name. -/
theorem prefix_apart {text : List Byte} (plain : equalsSign ∉ name) (own : name ++ [equalsSign] <+: text)
    (other : asked ++ [equalsSign] <+: text) : asked = name ∨ name ++ [equalsSign] <+: asked := by
  rcases List.prefix_or_prefix_of_prefix own other with shorter | longer
  · rcases List.prefix_concat_iff.mp shorter with same | within
    · exact .inl (List.append_cancel_right same).symm
    · exact .inr within
  · rcases List.prefix_concat_iff.mp longer with same | within
    · exact .inl (List.append_cancel_right same)
    · exact absurd (within.subset (by simp)) plain

theorem entry_apart {objects : Objects} {name other entry : Pointer} (plain : equalsSign ∉ textAt objects name)
    (differs : textAt objects other ≠ textAt objects name)
    (apart : ¬ textAt objects name ++ [equalsSign] <+: textAt objects other)
    (own : entryMatches objects (textAt objects name) entry = true) :
    entryMatches objects (textAt objects other) entry = false := by
  rw [entryMatches_iff_text (zero_notMem_textAt _ _)] at own
  rw [Bool.eq_false_iff, ne_eq, entryMatches_iff_text (zero_notMem_textAt _ _)]
  intro found
  exact (prefix_apart plain own found).elim differs apart

theorem filter_entryMatches (nonzero : 0 ∉ name) :
    st.entries.filter (entryMatches st.objects name) = st.named name := by
  refine List.filter_congr fun entry _ => ?_
  rw [Bool.eq_iff_iff, entryMatches_iff_text nonzero, decide_eq_true_iff]

end Removal

/-- `unsetenv` removes a variable exactly if the array has at most one entry of its name. -/
theorem unsetenv_removes_iff (st : Environ) (name : Pointer) (validName : ValidName (textAt st.objects name)) :
    RemovesVariable st name ↔ (st.named (textAt st.objects name)).length ≤ 1 := by
  obtain ⟨nonempty, plain, nonzero⟩ := validName
  cases environ : st.environ with
  | none =>
    have removed : unsetenv st name = (-1, st) := by rw [unsetenv, environ]
    have entries : st.named (textAt st.objects name) = [] := by rw [Environ.named, Environ.entries, environ]; rfl
    refine iff_of_true ?_ (by simp [entries])
    intro next called
    rw [removed] at called
    cases called
  | some entries =>
    have removed : unsetenv st name =
        (0, { st with environ := some (entries.eraseP (entryMatches st.objects (textAt st.objects name))) }) := by
      simp only [unsetenv, environ, nonempty, plain, or_self, if_false]
    have array : st.entries = entries := by rw [Environ.entries, environ]; rfl
    rw [← filter_entryMatches nonzero, array, ← find?_eraseP_self]
    constructor
    · intro removes
      obtain ⟨gone, -⟩ := removes _ removed
      simpa only [getenv, nonempty, if_false, getenvLoop, Option.map_eq_none_iff] using gone
    · intro gone next called
      rw [removed] at called
      obtain rfl := (Prod.mk.inj called).2
      refine ⟨?_, fun other differs apart => ?_⟩
      · simp only [getenv, nonempty, if_false, getenvLoop, gone, Option.map_none]
      · have found : (entries.eraseP (entryMatches st.objects (textAt st.objects name))).find?
            (entryMatches st.objects (textAt st.objects other)) =
              entries.find? (entryMatches st.objects (textAt st.objects other)) :=
          find?_eraseP fun entry _ own => entry_apart plain differs apart own
        simp only [getenv, environ, getenvLoop, found]

/-- A name with one entry. -/
theorem unsetenv_removes_iff_single :
    RemovesVariable ⟨[[65, 61, 49, 0], [66, 61, 50, 0], [65, 0]], some [⟨0, 0⟩, ⟨1, 0⟩], 0⟩ ⟨2, 0⟩ :=
  (unsetenv_removes_iff _ _ (by decide)).mpr (by decide)

/-- The array holds `A=1` and `A=2`: after `unsetenv` returns, `getenv` gives the second value. -/
theorem second_entry_left :
    ¬ RemovesVariable ⟨[[65, 61, 49, 0], [65, 61, 50, 0], [65, 0]], some [⟨0, 0⟩, ⟨1, 0⟩], 0⟩ ⟨2, 0⟩ := by
  intro removes
  obtain ⟨gone, -⟩ := removes _ rfl
  exact absurd gone (by decide)

end CLite
