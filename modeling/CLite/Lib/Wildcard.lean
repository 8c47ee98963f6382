import Mathlib.Computability.Language

/-! # Languages of wildcard sequences

A wildcard sequence is made of pieces that stand for one letter of a set, or for any word. Its language
is the product of the languages of its pieces. The membership rules peel one piece off at a time, and
shrinking the letter sets piece by piece shrinks the language.
-/

namespace Wildcard

variable {α : Type*}

inductive Piece (α : Type*) where
  | one (allowed : Set α)
  | many

/-- The words a piece stands for. -/
def Piece.language : Piece α → Language α
  | one allowed => {word | ∃ c ∈ allowed, word = [c]}
  | many => ⊤

/-- The words of a sequence of pieces. -/
def language (pieces : List (Piece α)) : Language α := (pieces.map Piece.language).prod

variable {word : List α} {allowed : Set α} {pieces : List (Piece α)}

@[simp] theorem mem_language_nil : word ∈ language ([] : List (Piece α)) ↔ word = [] := by
  simp [language]

@[simp] theorem mem_language_one :
    word ∈ language (.one allowed :: pieces) ↔
      ∃ c rest, word = c :: rest ∧ c ∈ allowed ∧ rest ∈ language pieces := by
  simp only [language, List.map_cons, List.prod_cons, Language.mem_mul]
  constructor
  · rintro ⟨first, ⟨c, member, rfl⟩, rest, tail, rfl⟩
    exact ⟨c, rest, rfl, member, tail⟩
  · rintro ⟨c, rest, rfl, member, tail⟩
    exact ⟨[c], ⟨c, member, rfl⟩, rest, tail, rfl⟩

@[simp] theorem mem_language_many :
    word ∈ language (.many :: pieces) ↔ ∃ front back, word = front ++ back ∧ back ∈ language pieces := by
  simp only [language, List.map_cons, List.prod_cons, Language.mem_mul]
  constructor
  · rintro ⟨front, -, back, tail, rfl⟩
    exact ⟨front, back, rfl, tail⟩
  · rintro ⟨front, back, rfl, tail⟩
    exact ⟨front, trivial, back, tail, rfl⟩

/-- Pieces that stand for less make a language that holds less. -/
theorem language_mono {smaller larger : List (Piece α)} {word : List α}
    (pointwise : List.Forall₂ (fun p q => ∀ word ∈ p.language, word ∈ q.language) smaller larger)
    (member : word ∈ language smaller) : word ∈ language larger := by
  induction pointwise generalizing word with
  | nil => exact member
  | cons head _ ih =>
    simp only [language, List.map_cons, List.prod_cons] at *
    obtain ⟨front, first, back, second, rfl⟩ := Language.mem_mul.mp member
    exact Language.mem_mul.mpr ⟨front, head front first, back, ih second, rfl⟩

end Wildcard
