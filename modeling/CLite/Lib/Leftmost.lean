import Mathlib.Data.List.Infix
import Mathlib.Tactic.Common

/-! # Leftmost occurrences

A search walks up from a starting position and stops at the first one that satisfies a test. What it finds is
the least such position, and it finds nothing only if there is none; both are read off its steps. The positions
searched for here are those at which one list stands inside another.
-/

namespace Leftmost

variable {α β : Type*} {property : ℕ → Prop} {start : ℕ} {result other : Option ℕ}

/-- The result of a search from `start` on: the least position with the property, if there is one. -/
def FirstFrom (property : ℕ → Prop) (start : ℕ) : Option ℕ → Prop
  | none => ∀ position, start ≤ position → ¬ property position
  | some position =>
      start ≤ position ∧ property position ∧ ∀ earlier, start ≤ earlier → earlier < position → ¬ property earlier

namespace FirstFrom

theorem here (found : property start) : FirstFrom property start (some start) :=
  ⟨le_rfl, found, fun _ lower upper => absurd lower (Nat.not_le_of_lt upper)⟩

theorem next (missed : ¬ property start) (later : FirstFrom property (start + 1) result) :
    FirstFrom property start result := by
  cases result with
  | none =>
    intro position lower found
    rcases Nat.eq_or_lt_of_le lower with rfl | above
    · exact missed found
    · exact later position above found
  | some position =>
    obtain ⟨lower, found, least⟩ := later
    refine ⟨Nat.le_of_succ_le lower, found, ?_⟩
    intro earlier atLeast below
    rcases Nat.eq_or_lt_of_le atLeast with rfl | above
    · exact missed
    · exact least earlier above below

theorem unique (one : FirstFrom property start result) (two : FirstFrom property start other) : result = other := by
  rcases result with _ | position <;> rcases other with _ | position'
  · rfl
  · exact absurd two.2.1 (one position' two.1)
  · exact absurd one.2.1 (two position one.1)
  · have notBelow : ¬ position < position' := fun below => two.2.2 position one.1 below one.2.1
    have notAbove : ¬ position' < position := fun above => one.2.2 position' two.1 above two.2.1
    congr 1
    omega

end FirstFrom

/-- The needle stands in the haystack after `offset` elements. -/
def OccursAt (needle haystack : List α) (offset : ℕ) : Prop :=
  ∃ before after, before.length = offset ∧ haystack = before ++ needle ++ after

variable {needle haystack : List α} {offset : ℕ}

theorem occursAt_iff_prefix_drop (within : offset ≤ haystack.length) :
    OccursAt needle haystack offset ↔ needle <+: haystack.drop offset := by
  constructor
  · rintro ⟨before, after, rfl, rfl⟩
    rw [List.append_assoc, List.drop_left]
    exact List.prefix_append needle after
  · rintro ⟨after, rest⟩
    refine ⟨haystack.take offset, after, List.length_take_of_le within, ?_⟩
    rw [List.append_assoc, rest, List.take_append_drop]

theorem OccursAt.bound (occurs : OccursAt needle haystack offset) : offset + needle.length ≤ haystack.length := by
  obtain ⟨before, after, rfl, rfl⟩ := occurs
  rw [List.length_append, List.length_append]
  exact Nat.le_add_right _ _

/-- A loop that leaves an ended haystack without a result, and else stops where the needle is a prefix of what
remains, finds the leftmost occurrence. -/
theorem firstFrom_of_walk {walk : ℕ → List α → Option ℕ} (nonempty : needle ≠ [])
    (ended : ∀ offset, walk offset [] = none)
    (found : ∀ offset x rest, needle <+: x :: rest → walk offset (x :: rest) = some offset)
    (missed : ∀ offset x rest, ¬ needle <+: x :: rest → walk offset (x :: rest) = walk (offset + 1) rest) :
    FirstFrom (OccursAt needle haystack) 0 (walk 0 haystack) := by
  suffices walked : ∀ before rest, haystack = before ++ rest →
      FirstFrom (OccursAt needle haystack) before.length (walk before.length rest) from walked [] haystack rfl
  intro before rest parts
  have reached : OccursAt needle haystack before.length ↔ needle <+: rest := by
    rw [occursAt_iff_prefix_drop (by simp [parts]), parts, List.drop_left]
  induction rest generalizing before with
  | nil =>
    rw [ended]
    intro position passed occurs
    have bound := occurs.bound
    have positive := List.length_pos_of_ne_nil nonempty
    rw [parts, List.append_nil] at bound
    omega
  | cons x rest ih =>
    by_cases within : needle <+: x :: rest
    · rw [found _ _ _ within]
      exact .here (reached.mpr within)
    · have later := ih (before ++ [x]) (by simp [parts])
      rw [List.length_append, List.length_singleton] at later
      rw [missed _ _ _ within]
      apply FirstFrom.next (mt reached.mp within)
      apply later
      rw [occursAt_iff_prefix_drop (by simp [parts]), parts, List.append_cons, List.drop_left' (by simp)]

theorem occursAt_nil_zero : OccursAt [] haystack 0 := ⟨[], haystack, rfl, rfl⟩

/-- A letter-by-letter translation that tells different letters apart keeps every occurrence where it is. -/
theorem occursAt_map {f : α → β} (injective : Function.Injective f) :
    OccursAt (needle.map f) (haystack.map f) offset ↔ OccursAt needle haystack offset := by
  by_cases within : offset ≤ haystack.length
  · rw [occursAt_iff_prefix_drop within, occursAt_iff_prefix_drop (by rwa [List.length_map]), ← List.map_drop,
      List.prefix_map_iff_of_injective injective]
  · refine ⟨fun occurs => absurd occurs.bound ?_, fun occurs => absurd occurs.bound ?_⟩
    · rw [List.length_map, List.length_map]
      omega
    · omega

end Leftmost
