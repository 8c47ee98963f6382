import CLite.Proofs.ScanRounds
import CLite.Spec.ScanFields

/-! # Integer directives

The text of an integer directive is read back into its options, and a round at it reads a number behind the
blanks. The width does not come into it.
-/

namespace CLite

open LongestPrefix

namespace IntegerDirective

theorem integerBase_char (d : IntegerDirective) : integerBase d.conversion.char = some d.base := by
  unfold base
  cases d.conversion <;> rfl

theorem readLength_text (length : ScanLength) (conversion : IntegerConversion) (f : CString) :
    readLength (length.text ++ conversion.char :: f) = (length, conversion.char :: f) := by
  cases length <;> cases conversion <;> rfl

/-- Behind the digits of the width comes a letter. -/
theorem length_head (length : ScanLength) (conversion : IntegerConversion) (f : CString) :
    ∃ x more, length.text ++ conversion.char :: f = x :: more ∧ isDecimal x = false ∧ x ≠ chr '*' ∧ x ≠ chr '%' := by
  cases length with
  | none => exact ⟨_, _, rfl, by cases conversion <;> decide⟩
  | _ => exact ⟨_, _, rfl, by decide⟩

theorem digitsText_decimal (width : List (Fin 10)) : ∀ x ∈ digitsText width, isDecimal x = true := by
  intro x member
  obtain ⟨digit, -, rfl⟩ := List.mem_map.mp member
  exact isDecimal_digitChar digit

/-- The options of a directive are read back from its text. -/
theorem readDirective_text (d : IntegerDirective) (f : CString) :
    readDirective (d.text ++ f) = some (⟨d.suppress, digitsText d.width, d.length, d.conversion.char⟩, f) ∧
      (d.text ++ f).head? ≠ some (chr '%') := by
  obtain ⟨suppress, width, length, conversion⟩ := d
  obtain ⟨x, more, shape, notDigit, notStar, notPercent⟩ := length_head length conversion f
  have first : ∀ y ∈ (digitsText width ++ x :: more).head?, y ≠ chr '*' ∧ y ≠ chr '%' := by
    intro y head
    cases width with
    | nil =>
      obtain rfl : x = y := Option.some.inj head
      exact ⟨notStar, notPercent⟩
    | cons digit width =>
      obtain rfl : digitChar digit.val = y := Option.some.inj head
      clear head
      revert digit
      decide
  have stop : ∀ y ∈ (x :: more).head?, isDecimal y = false := by simpa using notDigit
  have take := takeWhile_append_stop (digitsText_decimal width) stop
  have drop := dropWhile_append_stop (digitsText_decimal width) stop
  have modifier := readLength_text length conversion f
  rw [shape] at modifier
  cases suppress with
  | true =>
    have whole : IntegerDirective.text ⟨true, width, length, conversion⟩ ++ f =
        chr '*' :: (digitsText width ++ x :: more) := by
      simp [IntegerDirective.text, ← shape]
    rw [whole]
    refine ⟨?_, by simp only [List.head?_cons]; decide⟩
    simp only [readDirective, readOptions, List.head?_cons, decide_true, if_true, List.tail_cons, take, drop,
      modifier]
  | false =>
    have whole : IntegerDirective.text ⟨false, width, length, conversion⟩ ++ f = digitsText width ++ x :: more := by
      simp [IntegerDirective.text, ← shape]
    have noStar : (digitsText width ++ x :: more).head? ≠ some (chr '*') := fun head => (first _ head).1 rfl
    rw [whole]
    refine ⟨?_, fun head => (first _ head).2 rfl⟩
    simp only [readDirective, readOptions, noStar, decide_false, Bool.false_eq_true, if_false, take, drop, modifier]

/-- A round at an integer directive reads a number behind the blanks, in whatever width. -/
theorem round_eq (d : IntegerDirective) (str f : CString) (state : Scanning) :
    scanRound str (chr '%') (d.text ++ f) state =
      (skipped state).integer d.base d.length.isLong d.suppress f := by
  obtain ⟨read, opened⟩ := d.readDirective_text f
  rw [scanRound_directive opened read, conversion_integer d.integerBase_char]
  rfl

end IntegerDirective

end CLite
