import Mathlib.Data.List.Infix
import Mathlib.Data.List.TakeWhile
import Mathlib.Tactic.Common

/-! # Longest prefixes

A scanner takes from its input the longest prefix that belongs to a language. There is at most one such prefix,
and there is one if any prefix belongs to the language. A field width keeps the scanner to the front of the
input, which changes nothing as long as the prefix fits in it.
-/

namespace LongestPrefix

variable {α : Type*} {language : List α → Prop} {l p q : List α} {n : ℕ}

/-- The prefix belongs to the language, and no longer one does. -/
structure Longest (language : List α → Prop) (l p : List α) : Prop where
  belongs : language p
  within : p <+: l
  longest : ∀ q, language q → q <+: l → q.length ≤ p.length

theorem Longest.unique (one : Longest language l p) (other : Longest language l q) : p = q := by
  have shorter := one.longest q other.belongs other.within
  have longer := other.longest p one.belongs one.within
  exact (List.prefix_of_prefix_length_le one.within other.within longer).eq_of_length_le shorter

/-- If some prefix belongs to the language, one of them is the longest. -/
theorem exists_longest (belongs : language p) (within : p <+: l) : ∃ q, Longest language l q := by
  -- The induction is on what a longer prefix could still gain.
  induction gain : l.length - p.length using Nat.strong_induction_on generalizing p with
  | _ gain ih =>
    by_cases longer : ∃ q, language q ∧ q <+: l ∧ p.length < q.length
    · obtain ⟨q, belongs', within', more⟩ := longer
      have bound := within'.length_le
      exact ih (l.length - q.length) (by omega) belongs' within' rfl
    · refine ⟨p, belongs, within, ?_⟩
      intro q belongs' within'
      by_contra more
      exact longer ⟨q, belongs', within', by omega⟩

/-- A prefix that fits in the front of the list is the longest there. -/
theorem Longest.take (one : Longest language l p) (fits : p.length ≤ n) : Longest language (l.take n) p := by
  refine ⟨one.belongs, List.prefix_take_iff.mpr ⟨one.within, fits⟩, ?_⟩
  intro q belongs within
  exact one.longest q belongs (List.prefix_take_iff.mp within).1

/-- The prefix of the front is no longer than the front. -/
theorem Longest.length_le (one : Longest language (l.take n) p) : p.length ≤ n :=
  (List.prefix_take_iff.mp one.within).2

/-- Of the prefixes whose elements have a property, `takeWhile` is the longest. -/
theorem prefix_takeWhile_iff {property : α → Bool} (all : ∀ x ∈ p, property x = true) :
    p <+: l.takeWhile property ↔ p <+: l := by
  refine ⟨fun inside => inside.trans (List.takeWhile_prefix property), ?_⟩
  rintro ⟨rest, rfl⟩
  rw [List.takeWhile_append_of_pos all]
  exact List.prefix_append ..

section Span

variable {property : α → Bool} (all : ∀ x ∈ p, property x = true) (stop : ∀ x ∈ q.head?, property x = false)
include all stop

/-- `takeWhile` takes the elements with the property up to the first one without it. -/
theorem takeWhile_append_stop : (p ++ q).takeWhile property = p := by
  rw [List.takeWhile_append_of_pos all]
  cases q with
  | nil => rw [List.takeWhile_nil, List.append_nil]
  | cons x q => rw [List.takeWhile_cons_of_neg (by simp [stop x rfl]), List.append_nil]

theorem dropWhile_append_stop : (p ++ q).dropWhile property = q := by
  rw [List.dropWhile_append_of_pos all]
  cases q with
  | nil => rfl
  | cons x q => exact List.dropWhile_cons_of_neg (by simp [stop x rfl])

end Span

end LongestPrefix
