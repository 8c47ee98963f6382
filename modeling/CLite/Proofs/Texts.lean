import CLite.Spec.Texts

/-! # What the string functions do to texts

A loop over a text in memory follows the text character by character. For a copy the induction keeps that the
characters still to be read lie outside of what has been written.
-/

namespace CLite.Text

open ByteMemory

variable {memory : Memory} {s t : CString} {a b d src fuel n : ℕ}

theorem length_stored (s : CString) : (stored s).length = s.length + 1 := by simp [stored]

theorem holds_stored_nil : Holds memory a (stored []) ↔ memory a = 0 := by simp [stored, Holds]

theorem holds_stored_append :
    Holds memory a (stored (s ++ t)) ↔
      Holds memory a (s.map CChar.byte) ∧ Holds memory (a + s.length) (stored t) := by
  rw [stored, List.map_append, List.append_assoc, holds_append, List.length_map, stored]

/-! ## Copies -/

/-- One turn of a copy leaves the rest of its source as it is. -/
theorem holds_update_rest {x : CChar} {byte : Byte} {k : ℕ} (holds : Holds memory src (stored (x :: s)))
    (apart : Region.Apart ⟨d, k + 1⟩ ⟨src, (x :: s).length + 1⟩) :
    Holds (Function.update memory d byte) (src + 1) (stored s) := by
  refine (wrote_update memory d byte).2.holds (apart.mono ⟨Nat.le_refl _, ?_⟩ ⟨?_, ?_⟩) holds.2
  · simp only [List.length_singleton]
    omega
  · exact Nat.le_succ src
  · simp only [length_stored, List.length_cons]
    omega

theorem Apart.rest {x : CChar} {k : ℕ} (apart : Region.Apart ⟨d, k + 1⟩ ⟨src, (x :: s).length + 1⟩) :
    Region.Apart ⟨d + 1, k⟩ ⟨src + 1, s.length + 1⟩ := by
  refine apart.mono ⟨Nat.le_succ d, ?_⟩ ⟨Nat.le_succ src, ?_⟩
  · simp only
    omega
  · simp only [List.length_cons]
    omega

theorem copyLoop_eq (holds : Holds memory src (stored s)) (apart : Region.Apart ⟨d, s.length + 1⟩ ⟨src, s.length + 1⟩)
    (enough : s.length < fuel) :
    ∃ after, copyLoop fuel memory d src = some (after, d + s.length) ∧ Wrote memory after d (stored s) := by
  induction s generalizing memory d src fuel with
  | nil =>
    obtain ⟨fuel, rfl⟩ : ∃ more, fuel = more + 1 := ⟨fuel - 1, by omega⟩
    refine ⟨Function.update memory d 0, ?_, wrote_update memory d 0⟩
    rw [copyLoop, if_pos (holds_stored_nil.mp holds)]
    rfl
  | cons x s ih =>
    obtain ⟨fuel, rfl⟩ : ∃ more, fuel = more + 1 := ⟨fuel - 1, by omega⟩
    obtain ⟨after, copied, wrote⟩ :=
      ih (holds_update_rest holds apart) (Apart.rest apart) (Nat.lt_of_succ_lt_succ enough)
    refine ⟨after, ?_, wrote.cons⟩
    rw [copyLoop, holds.1, if_neg x.nonzero, copied, List.length_cons, Nat.add_assoc, Nat.add_comm 1]

theorem copyAtMost_eq (holds : Holds memory src (stored s))
    (apart : Region.Apart ⟨d, (s.take n).length⟩ ⟨src, s.length + 1⟩) :
    ∃ after, copyAtMost n memory d src = (after, d + (s.take n).length) ∧
      Wrote memory after d ((s.take n).map CChar.byte) := by
  induction n generalizing memory d src s with
  | zero => exact ⟨memory, rfl, wrote_nil memory d⟩
  | succ n ih =>
    cases s with
    | nil =>
      refine ⟨memory, ?_, wrote_nil memory d⟩
      rw [copyAtMost, if_pos (holds_stored_nil.mp holds)]
      rfl
    | cons x s =>
      obtain ⟨after, copied, wrote⟩ := ih (holds_update_rest holds apart) (Apart.rest apart)
      refine ⟨after, ?_, wrote.cons⟩
      rw [copyAtMost, holds.1, if_neg x.nonzero, copied, List.take_succ_cons, List.length_cons, Nat.add_assoc,
        Nat.add_comm 1]

theorem memset_wrote (memory : Memory) (d n : ℕ) : Wrote memory (memset memory d 0 n) d (List.replicate n 0) := by
  induction n with
  | zero => exact wrote_nil memory d
  | succ n ih =>
    rw [List.replicate_succ']
    refine ih.append ?_
    rw [List.length_replicate]
    exact wrote_update ..

/-- The characters that are copied, and zeros up to `n`. -/
theorem strncpy_eq (holds : Holds memory src (stored s)) (apart : Region.Apart ⟨d, n⟩ ⟨src, s.length + 1⟩) :
    ∃ after, strncpy memory d src n = (d, after) ∧
      Wrote memory after d ((s.take n).map CChar.byte ++ List.replicate (n - (s.take n).length) 0) := by
  have shorter : (s.take n).length ≤ n := List.length_take_le n s
  obtain ⟨copy, copied, wrote⟩ := copyAtMost_eq (n := n) holds
    (apart.mono ⟨Nat.le_refl _, Nat.add_le_add_left shorter d⟩ ⟨Nat.le_refl _, Nat.le_refl _⟩)
  refine ⟨memset copy (d + (s.take n).length) 0 (n - (s.take n).length), ?_, wrote.append ?_⟩
  · simp only [strncpy, copied, Nat.add_sub_add_left]
  · rw [List.length_map]
    exact memset_wrote ..

/-! ## Lengths, comparisons and searches -/

theorem strlen_stored (holds : Holds memory a (stored s)) (enough : s.length < fuel) :
    strlen memory a fuel = some s.length := by
  induction s generalizing a fuel with
  | nil =>
    obtain ⟨fuel, rfl⟩ : ∃ more, fuel = more + 1 := ⟨fuel - 1, by omega⟩
    rw [strlen, if_pos (holds_stored_nil.mp holds)]
    rfl
  | cons x s ih =>
    obtain ⟨fuel, rfl⟩ : ∃ more, fuel = more + 1 := ⟨fuel - 1, by omega⟩
    rw [strlen, holds.1, if_neg x.nonzero, ih holds.2 (Nat.lt_of_succ_lt_succ enough)]
    rfl

theorem strnlen_stored (holds : Holds memory a (stored s)) : strnlen memory a n = min n s.length := by
  induction n generalizing a s with
  | zero => exact (Nat.zero_min _).symm
  | succ n ih =>
    cases s with
    | nil =>
      rw [strnlen, if_pos (holds_stored_nil.mp holds)]
      rfl
    | cons x s => rw [strnlen, holds.1, if_neg x.nonzero, ih holds.2, List.length_cons, Nat.succ_min_succ]

/-- Characters are told apart by their bytes. -/
theorem byte_inj {x y : CChar} : x.byte = y.byte ↔ x = y := by
  cases x
  cases y
  simp

theorem strcmpLoop_stored (holds : Holds memory a (stored s)) (holds' : Holds memory b (stored t))
    (enough : s.length < fuel) : strcmpLoop memory fuel a b = some (compareTexts s t) := by
  induction s generalizing t a b fuel with
  | nil =>
    obtain ⟨fuel, rfl⟩ : ∃ more, fuel = more + 1 := ⟨fuel - 1, by omega⟩
    have ended := holds_stored_nil.mp holds
    rw [strcmpLoop, if_neg (fun going => going.1 ended), ended]
    cases t with
    | nil => rw [holds_stored_nil.mp holds']; rfl
    | cons y t => rw [holds'.1]; rfl
  | cons x s ih =>
    obtain ⟨fuel, rfl⟩ : ∃ more, fuel = more + 1 := ⟨fuel - 1, by omega⟩
    rw [strcmpLoop, holds.1]
    cases t with
    | nil =>
      rw [holds_stored_nil.mp holds', if_neg (fun going => x.nonzero going.2)]
      rfl
    | cons y t =>
      rw [holds'.1, compareTexts]
      by_cases same : x = y
      · rw [if_pos ⟨x.nonzero, byte_inj.mpr same⟩, if_pos same, ih holds.2 holds'.2 (Nat.lt_of_succ_lt_succ enough)]
      · rw [if_neg (fun going => same (byte_inj.mp going.2)), if_neg same]
        rfl

theorem strncmp_stored (holds : Holds memory a (stored s)) (holds' : Holds memory b (stored t)) :
    strncmp memory a b n = compareTexts (s.take n) (t.take n) := by
  induction n generalizing a b s t with
  | zero => rfl
  | succ n ih =>
    rw [strncmp]
    cases s with
    | nil =>
      have ended := holds_stored_nil.mp holds
      rw [if_pos (.inr ended), ended]
      cases t with
      | nil => rw [holds_stored_nil.mp holds']; rfl
      | cons y t => rw [holds'.1]; rfl
    | cons x s =>
      rw [holds.1]
      cases t with
      | nil =>
        rw [holds_stored_nil.mp holds', if_pos (.inl x.nonzero)]
        rfl
      | cons y t =>
        rw [holds'.1, List.take_succ_cons, List.take_succ_cons, compareTexts]
        by_cases same : x = y
        · have going : ¬(x.byte ≠ y.byte ∨ x.byte = 0) := by
            rintro (differ | ended)
            · exact differ (byte_inj.mpr same)
            · exact x.nonzero ended
          rw [if_neg going, if_pos same, ih holds.2 holds'.2]
        · rw [if_pos (.inl fun equal => same (byte_inj.mp equal)), if_neg same]
          rfl

variable {c : Byte}

theorem strchrLoop_stored (holds : Holds memory a (stored s)) (enough : s.length < fuel) :
    strchrLoop memory c fuel a =
      some (if firstPlace s c < s.length ∨ c = 0 then some (a + firstPlace s c) else none) := by
  induction s generalizing a fuel with
  | nil =>
    obtain ⟨fuel, rfl⟩ : ∃ more, fuel = more + 1 := ⟨fuel - 1, by omega⟩
    rw [strchrLoop, holds_stored_nil.mp holds]
    by_cases zero : c = 0
    · simp [zero, firstPlace]
    · have absent : ¬(firstPlace [] c < ([] : CString).length ∨ c = 0) := not_or.mpr ⟨Nat.not_lt_zero _, zero⟩
      rw [if_neg (Ne.symm zero), if_pos rfl, if_neg absent]
  | cons x s ih =>
    obtain ⟨fuel, rfl⟩ : ∃ more, fuel = more + 1 := ⟨fuel - 1, by omega⟩
    rw [strchrLoop, holds.1, if_neg x.nonzero, ih holds.2 (Nat.lt_of_succ_lt_succ enough)]
    by_cases found : x.byte = c
    · simp [found, firstPlace, List.findIdx_cons]
    · have later : firstPlace (x :: s) c = firstPlace s c + 1 := by simp [firstPlace, List.findIdx_cons, found]
      simp only [if_neg found, later, List.length_cons, Nat.add_lt_add_iff_right, Nat.add_assoc, Nat.add_comm 1]

theorem strchrnulLoop_stored (holds : Holds memory a (stored s)) (enough : s.length < fuel) :
    strchrnulLoop memory c fuel a = some (a + firstPlace s c) := by
  induction s generalizing a fuel with
  | nil =>
    obtain ⟨fuel, rfl⟩ : ∃ more, fuel = more + 1 := ⟨fuel - 1, by omega⟩
    rw [strchrnulLoop, if_neg (fun going => going.1 (holds_stored_nil.mp holds))]
    rfl
  | cons x s ih =>
    obtain ⟨fuel, rfl⟩ : ∃ more, fuel = more + 1 := ⟨fuel - 1, by omega⟩
    rw [strchrnulLoop, holds.1]
    by_cases found : x.byte = c
    · rw [if_neg (fun going => going.2 found)]
      simp [firstPlace, List.findIdx_cons, found]
    · rw [if_pos ⟨x.nonzero, found⟩, ih holds.2 (Nat.lt_of_succ_lt_succ enough)]
      simp [firstPlace, List.findIdx_cons, found, Nat.add_assoc, Nat.add_comm 1]

/-- A later place replaces the one found before. -/
theorem strrchrLoop_stored {last : Option ℕ} (holds : Holds memory a (stored s)) (enough : s.length < fuel) :
    strrchrLoop memory c fuel a last =
      some (if c = 0 then some (a + s.length) else ((lastPlace c s).map (a + ·)).or last) := by
  induction s generalizing a fuel last with
  | nil =>
    obtain ⟨fuel, rfl⟩ : ∃ more, fuel = more + 1 := ⟨fuel - 1, by omega⟩
    rw [strrchrLoop, holds_stored_nil.mp holds]
    by_cases zero : c = 0
    · simp [zero]
    · simp only [if_neg (Ne.symm zero), if_neg zero, if_true, lastPlace, Option.map_none, Option.none_or]
  | cons x s ih =>
    obtain ⟨fuel, rfl⟩ : ∃ more, fuel = more + 1 := ⟨fuel - 1, by omega⟩
    simp only [strrchrLoop, holds.1, if_neg x.nonzero]
    rw [ih holds.2 (Nat.lt_of_succ_lt_succ enough), lastPlace]
    by_cases zero : c = 0
    · rw [if_pos zero, if_pos zero, List.length_cons, Nat.add_assoc, Nat.add_comm 1]
    · rw [if_neg zero, if_neg zero]
      cases lastPlace c s with
      | some place => simp [Nat.add_assoc, Nat.add_comm 1]
      | none =>
        by_cases found : x.byte = c
        · simp [found]
        · simp [found]

end CLite.Text
