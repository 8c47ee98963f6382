import Mathlib.Tactic.FieldSimp
import Mathlib.Tactic.Linarith
import CLite.Soundness.PrintIntegers
import CLite.Spec.ProcTexts

/-! # Load averages

The digits of the fraction are added up with a scale that is cut to an integer after each of them, so that the result
is a little too small. After four digits the scale is zero and the loop stops, whether or not the number ends there.
-/

namespace CLite

section Loops

variable {val frac scale : ℕ} {rest : CString}

theorem decimalDigit_digitChar : ∀ digit : Fin 10, decimalDigit (digitChar digit.val) = digit.val := by decide

/-- The digits in front of something else are read modulo 2 to the 32. -/
theorem wholeLoop_digits (ends : ∀ x ∈ rest.head?, isDecimal x = false) (digits : List (Fin 10)) (value : ℕ) :
    wholeLoop (value % 2 ^ 32) (digitsText digits ++ rest) =
      ((digits.map Fin.val).foldl (fun value digit => value * 10 + digit) value % 2 ^ 32, rest) := by
  induction digits generalizing value with
  | nil =>
    cases rest with
    | nil => rfl
    | cons x rest => exact if_neg (by simp [ends x rfl])
  | cons digit digits ih =>
    have step : (value % 2 ^ 32 * 10 + digit.val) % 2 ^ 32 = (value * 10 + digit.val) % 2 ^ 32 := by omega
    rw [digitsText, List.map_cons, List.cons_append, wholeLoop, if_pos (isDecimal_digitChar digit),
      decimalDigit_digitChar, step]
    exact ih (value * 10 + digit.val)

theorem fractionLoop_ends (ends : ∀ x ∈ rest.head?, isDecimal x = false) :
    fractionLoop frac scale rest = (frac, rest) := by
  cases rest with
  | nil => rfl
  | cons x rest => exact if_neg (by simp [ends x rfl])

/-- What digits add up to if the scale is cut after each of them. -/
def weighted (scale : ℕ) : List (Fin 10) → ℕ
  | [] => 0
  | digit :: digits => digit.val * scale + weighted (scale / 10) digits

theorem weighted_zero (digits : List (Fin 10)) : weighted 0 digits = 0 := by
  induction digits with
  | nil => rfl
  | cons digit digits ih => rw [weighted, Nat.mul_zero, Nat.zero_div, ih]

/-- The digits are added up until the scale is zero. The sum does not wrap: ten times the scale bounds what comes. -/
theorem fractionLoop_digits (ends : ∀ x ∈ rest.head?, isDecimal x = false) (digits : List (Fin 10))
    (room : frac + 10 * scale < 2 ^ 32) :
    fractionLoop frac scale (digitsText digits ++ rest) =
      (frac + weighted scale digits, digitsText (digits.drop (Nat.digits 10 scale).length) ++ rest) := by
  induction digits generalizing frac scale with
  | nil =>
    rw [List.drop_nil]
    exact fractionLoop_ends ends
  | cons digit digits ih =>
    have below := digit.isLt
    rw [digitsText, List.map_cons, List.cons_append, fractionLoop]
    by_cases left : 0 < scale
    · have bound : digit.val * scale ≤ 9 * scale := Nat.mul_le_mul_right scale (by omega)
      rw [if_pos ⟨isDecimal_digitChar digit, left⟩, decimalDigit_digitChar, Nat.mod_eq_of_lt (by omega),
        Nat.digits_of_two_le_of_pos (by decide) left, List.length_cons, List.drop_succ_cons, weighted,
        ← Nat.add_assoc]
      exact ih (by omega)
    · obtain rfl : scale = 0 := by omega
      rw [if_neg (by simp), weighted_zero, Nat.digits_zero]
      rfl

end Loops

section Bounds

/-- With at most four digits, the sum is at most the fraction and less than 26 below it. -/
theorem weighted_bounds {digits : List (Fin 10)} (short : digits.length ≤ 4) :
    weighted 6553 digits < 65536 ∧
      weighted 6553 digits * 10 ^ digits.length ≤ Nat.ofDigits 10 (digits.map Fin.val).reverse * 65536 ∧
      Nat.ofDigits 10 (digits.map Fin.val).reverse * 65536 < (weighted 6553 digits + 26) * 10 ^ digits.length := by
  match digits with
  | [] | [_] | [_, _] | [_, _, _] | [_, _, _, _] =>
    simp only [weighted, List.map, List.reverse_cons, List.reverse_nil, List.nil_append, List.cons_append,
      Nat.ofDigits_cons, Nat.ofDigits_nil, List.length]
    omega

theorem fixedPoint_of_short {n : LoadNumber} (short : n.fraction.length ≤ 4) :
    n.FixedPoint (n.floor * 65536 + weighted 6553 n.fraction) := by
  obtain ⟨small, below, near⟩ := weighted_bounds short
  have power : (0 : ℚ) < 10 ^ n.fraction.length := by positivity
  have scaled : n.value * 65536 = n.floor * 65536 +
      ((Nat.ofDigits 10 (n.fraction.map Fin.val).reverse * 65536 : ℕ) : ℚ) / 10 ^ n.fraction.length := by
    rw [LoadNumber.value]
    push_cast
    ring
  have lower : (weighted 6553 n.fraction : ℚ) ≤
      ((Nat.ofDigits 10 (n.fraction.map Fin.val).reverse * 65536 : ℕ) : ℚ) / 10 ^ n.fraction.length := by
    rw [le_div_iff₀ power]
    exact_mod_cast below
  have upper : ((Nat.ofDigits 10 (n.fraction.map Fin.val).reverse * 65536 : ℕ) : ℚ) / 10 ^ n.fraction.length <
      weighted 6553 n.fraction + 26 := by
    rw [div_lt_iff₀ power]
    exact_mod_cast near
  have cast : ((n.floor * 65536 + weighted 6553 n.fraction : ℕ) : ℚ) =
      n.floor * 65536 + weighted 6553 n.fraction := by
    rw [Nat.cast_add, Nat.cast_mul, Nat.cast_ofNat]
  constructor
  · exact Nat.le_add_right ..
  · rw [Nat.succ_mul]
    exact Nat.add_lt_add_left small _
  · rw [scaled, cast]
    linarith
  · rw [scaled, cast]
    linarith

end Bounds

section Numbers

variable {n : LoadNumber} {blanks rest : CString}

theorem floor_eq (n : LoadNumber) :
    (n.whole.map Fin.val).foldl (fun value digit => value * 10 + digit) 0 = n.floor :=
  digitsValue_eq_ofDigits 10 _

/-- What a call returns at a number, and where it stops. -/
theorem parseLoad_number (blank : ∀ x ∈ blanks, IsBlank x) (ends : ∀ x ∈ rest.head?, isDecimal x = false) :
    parseLoad (blanks ++ (n.text ++ rest)) =
      ((n.floor * 65536 + weighted 6553 n.fraction) % 2 ^ 32, digitsText (n.fraction.drop 4) ++ rest) := by
  obtain ⟨digit, digits, whole⟩ := List.exists_cons_of_ne_nil n.nonempty
  have skipped : (blanks ++ (n.text ++ rest)).dropWhile (fun x => x = chr ' ' ∨ x = chr '\t') = n.text ++ rest := by
    have inner : ∀ digit : Fin 10, digitChar digit.val ≠ chr ' ' ∧ digitChar digit.val ≠ chr '\t' := by decide
    rw [List.dropWhile_append_of_pos (by simpa [IsBlank] using blank), LoadNumber.text, whole, digitsText,
      List.map_cons, List.cons_append, List.cons_append, List.dropWhile_cons_of_neg (by simpa using inner digit)]
  have read : wholeLoop 0 (n.text ++ rest) = (n.floor, chr '.' :: (digitsText n.fraction ++ rest)) := by
    have small : n.floor < 2 ^ 15 := n.small
    have point : ∀ x ∈ (chr '.' :: (digitsText n.fraction ++ rest)).head?, isDecimal x = false := by
      rintro x ⟨⟩
      decide
    have loop := wholeLoop_digits point n.whole 0
    rw [floor_eq, Nat.zero_mod, Nat.mod_eq_of_lt (by omega)] at loop
    rw [LoadNumber.text, List.append_assoc, List.cons_append, loop]
  have fraction := fractionLoop_digits ends n.fraction (show 0 + 10 * 6553 < 2 ^ 32 by decide)
  have small : n.floor < 2 ^ 15 := n.small
  have room : n.floor * 65536 % 2 ^ 32 = n.floor * 65536 := Nat.mod_eq_of_lt (by omega)
  simp only [parseLoad, skipped, read, if_pos, room, show 65536 / 10 = 6553 from rfl, fraction, Nat.zero_add]
  rfl

/-- A call leaves a number behind it exactly if the fraction has at most four digits, and then its result is right. -/
theorem parseLoad_number_iff (blank : ∀ x ∈ blanks, IsBlank x) (ends : ∀ x ∈ rest.head?, isDecimal x = false) :
    (n.FixedPoint (parseLoad (blanks ++ (n.text ++ rest))).1 ∧ (parseLoad (blanks ++ (n.text ++ rest))).2 = rest) ↔
      n.fraction.length ≤ 4 := by
  rw [parseLoad_number blank ends, List.append_left_eq_self, digitsText, List.map_eq_nil_iff,
    List.drop_eq_nil_iff]
  constructor
  · exact fun both => both.2
  · intro short
    have bound := (fixedPoint_of_short short).lt_floor
    have small : n.floor < 2 ^ 15 := n.small
    rw [Nat.mod_eq_of_lt (by omega)]
    exact ⟨fixedPoint_of_short short, short⟩

end Numbers

theorem blank_ends {gap rest : CString} (blank : ∀ x ∈ gap, IsBlank x) (nonempty : gap ≠ []) :
    ∀ x ∈ (gap ++ rest).head?, isDecimal x = false := by
  obtain ⟨y, gap, rfl⟩ := List.exists_cons_of_ne_nil nonempty
  rintro x ⟨⟩
  rcases blank y (List.mem_cons_self ..) with rfl | rfl
  · decide
  · decide

/-- Three calls give the three numbers, each with the cursor behind it, exactly if no number has more than four digits
behind its point. -/
theorem load_averages_iff (line : LoadLine) :
    (line.first.FixedPoint (parseLoad line.text).1 ∧ (parseLoad line.text).2 = line.behindFirst ∧
      line.second.FixedPoint (parseLoad (parseLoad line.text).2).1 ∧
      (parseLoad (parseLoad line.text).2).2 = line.behindSecond ∧
      line.third.FixedPoint (parseLoad (parseLoad (parseLoad line.text).2).2).1 ∧
      (parseLoad (parseLoad (parseLoad line.text).2).2).2 = line.tail) ↔
    line.first.fraction.length ≤ 4 ∧ line.second.fraction.length ≤ 4 ∧ line.third.fraction.length ≤ 4 := by
  have first : line.first.FixedPoint (parseLoad line.text).1 ∧ (parseLoad line.text).2 = line.behindFirst ↔ _ :=
    parseLoad_number_iff line.lead_blank (blank_ends line.gap_blank line.gap_nonempty)
  have second : line.second.FixedPoint (parseLoad line.behindFirst).1 ∧
      (parseLoad line.behindFirst).2 = line.behindSecond ↔ _ :=
    parseLoad_number_iff line.gap_blank (blank_ends line.gap'_blank line.gap'_nonempty)
  have third : line.third.FixedPoint (parseLoad line.behindSecond).1 ∧
      (parseLoad line.behindSecond).2 = line.tail ↔ _ :=
    parseLoad_number_iff line.gap'_blank line.tail_ends
  rw [← first, ← second, ← third]
  constructor
  · rintro ⟨fixed, behind, fixed', behind', fixed'', behind''⟩
    rw [behind] at fixed' behind' fixed'' behind''
    rw [behind'] at fixed'' behind''
    exact ⟨⟨fixed, behind⟩, ⟨fixed', behind'⟩, fixed'', behind''⟩
  · rintro ⟨⟨fixed, behind⟩, ⟨fixed', behind'⟩, fixed'', behind''⟩
    rw [behind, behind']
    exact ⟨fixed, rfl, fixed', rfl, fixed'', behind''⟩

/-- The text `0.5 1.25 12.3456`. -/
def shortLoads : LoadLine where
  lead := []
  first := ⟨[⟨0, by decide⟩], [⟨5, by decide⟩], by decide, by decide⟩
  gap := cstr " "
  second := ⟨[⟨1, by decide⟩], [⟨2, by decide⟩, ⟨5, by decide⟩], by decide, by decide⟩
  gap' := cstr " "
  third := ⟨[⟨1, by decide⟩, ⟨2, by decide⟩], [⟨3, by decide⟩, ⟨4, by decide⟩, ⟨5, by decide⟩, ⟨6, by decide⟩],
    by decide, by decide⟩
  tail := []
  lead_blank := by simp
  gap_blank := by simp [cstr, IsBlank]
  gap_nonempty := by decide
  gap'_blank := by simp [cstr, IsBlank]
  gap'_nonempty := by decide
  tail_ends := by simp

theorem load_averages_short :
    shortLoads.text = cstr "0.5 1.25 12.3456" ∧ shortLoads.third.FixedPoint 809072 := by
  have parsed := (load_averages_iff shortLoads).mpr (by decide)
  have text : shortLoads.text = cstr "0.5 1.25 12.3456" := by decide
  have third : (parseLoad (parseLoad (parseLoad shortLoads.text).2).2).1 = 809072 := by decide
  exact ⟨text, third ▸ parsed.2.2.2.2.1⟩

/-- The cursor is left in front of the fifth digit, and the next call starts from there. -/
theorem load_averages_stuck :
    parseLoad (cstr "0.12345 1.5 2.5") = (8082, cstr "5 1.5 2.5") ∧
      parseLoad (cstr "5 1.5 2.5") = (5 * 65536, cstr " 1.5 2.5") := by
  decide

end CLite
