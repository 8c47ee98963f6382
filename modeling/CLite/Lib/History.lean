import Mathlib.Tactic.Common

/-! # Histories

A history lists events with the newest first. `Since` says that some event of a kind has come, and none that
would end its effect after it.
-/

namespace History

variable {α : Type*} {hit ends : α → Prop}

/-- The history has an event that hits, and no event after it ends that. -/
def Since (hit ends : α → Prop) (history : List α) : Prop :=
  ∃ later event earlier, history = later ++ event :: earlier ∧ hit event ∧ ∀ other ∈ later, ¬ ends other

@[simp] theorem since_nil : ¬ Since hit ends [] := by
  rintro ⟨later, event, earlier, split, -, -⟩
  simp at split

theorem since_cons {event : α} {history : List α} :
    Since hit ends (event :: history) ↔ hit event ∨ ¬ ends event ∧ Since hit ends history := by
  constructor
  · rintro ⟨_ | ⟨newest, later⟩, found, earlier, split, hits, quiet⟩
    · obtain ⟨rfl, -⟩ := List.cons_eq_cons.mp split
      exact .inl hits
    · obtain ⟨rfl, rest⟩ := List.cons_eq_cons.mp split
      exact .inr ⟨quiet _ (List.mem_cons_self ..), later, found, earlier, rest, hits,
        fun other member => quiet other (List.mem_cons_of_mem _ member)⟩
  · rintro (hits | ⟨lasting, later, found, earlier, rfl, hits, quiet⟩)
    · exact ⟨[], event, history, rfl, hits, by simp⟩
    · exact ⟨event :: later, found, earlier, rfl, hits, by simpa using ⟨lasting, quiet⟩⟩

/-- Events that neither hit nor end anything do not count. -/
theorem since_append {events history : List α} (idle : ∀ event ∈ events, ¬ hit event ∧ ¬ ends event) :
    Since hit ends (events ++ history) ↔ Since hit ends history := by
  induction events with
  | nil => rfl
  | cons event events ih =>
    obtain ⟨misses, lasting⟩ := idle event (List.mem_cons_self ..)
    rw [List.cons_append, since_cons, ih fun other member => idle other (List.mem_cons_of_mem _ member)]
    simp only [misses, lasting, not_false_eq_true, true_and, false_or]

end History
