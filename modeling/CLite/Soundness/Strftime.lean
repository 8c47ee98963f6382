import CLite.Soundness.PrintIntegers
import CLite.Spec.TimeText

/-! # `strftime`

Each round of the loop writes the text that the format stands for there, as much of it as there is room for. The case
for other letters also runs on the end of the format: it copies the terminator and goes past it. This happens exactly
if the format ends in a percent sign with nothing behind it and there is still room when the sign is reached.
-/

namespace CLite

open ByteMemory BoundedSink

section Strings

variable {memory : Memory} {address size : ℕ} {text : List Byte}

theorem tempString_eq (holds : Holds memory address text) (ended : memory (address + text.length) = 0)
    (nonzero : ∀ byte ∈ text, byte ≠ 0) (fits : text.length < size) : tempString memory address size = some text := by
  induction text generalizing address size with
  | nil =>
    obtain ⟨size, rfl⟩ : ∃ more, size = more + 1 := ⟨size - 1, by rw [List.length_nil] at fits; omega⟩
    exact if_pos ended
  | cons byte text ih =>
    rw [List.length_cons] at fits ended
    obtain ⟨size, rfl⟩ : ∃ more, size = more + 1 := ⟨size - 1, by omega⟩
    obtain ⟨first, later⟩ := holds
    obtain ⟨here, others⟩ := List.forall_mem_cons.mp nonzero
    rw [tempString, first, if_neg here, ih later (by rwa [Nat.add_assoc, Nat.add_comm 1]) others (by omega),
      Option.map_some]

theorem Printed.holds {before after : Memory} {str : ℕ} (printed : Printed before str size text after) :
    Holds after str text := by
  rw [holds_iff]
  intro i bound
  rw [List.getElem?_eq_getElem bound, printed.characters i bound]

end Strings

section Numbers

variable {d : FormatDirective} {value : BitVec 32}

theorem digitGlyph_ne_zero : ∀ digit < 10, digitGlyph false digit ≠ 0 := by decide

theorem decimalText_nonzero (n : ℕ) : ∀ byte ∈ decimalText n, byte ≠ 0 := by
  intro byte member
  obtain ⟨digit, within, rfl⟩ := List.mem_map.mp member
  exact digitGlyph_ne_zero digit (leadDigits_lt (by decide) digit within)

theorem decimalText_length_le {n : ℕ} (word : n < 2 ^ 32) : (decimalText n).length ≤ 10 := by
  rw [decimalText, List.length_map]
  split
  · exact Nat.le_of_ble_eq_true rfl
  · rw [List.length_reverse, Nat.digits_length_le_iff (by decide)]
    omega

theorem zerosField_bounds {number : ℤ} (word : number.natAbs < 2 ^ 32) :
    (∀ byte ∈ zerosField 2 number, byte ≠ 0) ∧ (zerosField 2 number).length < 32 := by
  have digits := decimalText_nonzero number.natAbs
  have short := decimalText_length_le word
  have sign : (if number < 0 then [ascii '-'] else []).length ≤ 1 := by split <;> simp
  constructor
  · intro byte member
    rw [zerosField, List.mem_append, List.mem_append, List.mem_replicate] at member
    rcases member with (minus | zero) | digit
    · split at minus
      · rw [List.mem_singleton.mp minus]
        decide
      · cases minus
    · rw [zero.2]
      decide
    · exact digits byte digit
  · simp only [zerosField, List.length_append, List.length_replicate]
    omega

theorem blanksField_bounds {width : ℕ} (narrow : width ≤ 2) {number : ℤ} (word : number.natAbs < 2 ^ 32) :
    (∀ byte ∈ blanksField width number, byte ≠ 0) ∧ (blanksField width number).length < 32 := by
  have digits := decimalText_nonzero number.natAbs
  have short := decimalText_length_le word
  have sign : (if number < 0 then [ascii '-'] else []).length ≤ 1 := by split <;> simp
  constructor
  · intro byte member
    rw [blanksField, List.mem_append, List.mem_replicate, List.mem_append] at member
    rcases member with blank | minus | digit
    · rw [blank.2]
      decide
    · split at minus
      · rw [List.mem_singleton.mp minus]
        decide
      · cases minus
    · exact digits byte digit
  · simp only [blanksField, List.length_append, List.length_replicate]
    omega

/-- The directive `%d` with flags and a width. -/
def intDirective (flags : List Flag) (width : Width) : FormatDirective := ⟨flags, width, .absent, .none, .d⟩

/-- A field without a zero byte that fits is what `temp` has afterwards. -/
theorem tempText_eq (stack : Memory) (flags : List Flag) (width : Width) {text : List Byte}
    (plain : ∀ flag ∈ flags, flag = .minus ∨ flag = .zero)
    (bounded : ((intDirective flags width).widthAt (.ofWords [value]) 0).natAbs < 2 ^ 31)
    (field : (intDirective flags width).integerField (.ofWords [value]) 0
      (leadDigits 10 ((intDirective flags width).valueAt (.ofWords [value]) 0).natAbs) = text)
    (bounds : (∀ byte ∈ text, byte ≠ 0) ∧ text.length < 32) :
    tempText stack (chr '%' :: (intDirective flags width).text) value = some text := by
  obtain ⟨nonzero, short⟩ := bounds
  have integer : (intDirective flags width).IntegerField := ⟨plain, rfl, .inl rfl, .inl rfl⟩
  have length := congrArg List.length field
  obtain ⟨after, result, printed⟩ := vsnprintf_integerField integer bounded stack Nat.one_ne_zero
    (show _ < 32 from length ▸ short)
  have printed : Printed stack 1 32 text after := field ▸ printed
  rw [tempText, result, Option.bind_some, tempString_eq printed.holds printed.terminator nonzero short]

theorem natAbs_toInt_lt (value : BitVec 32) : value.toInt.natAbs < 2 ^ 32 := by
  have low := value.le_toInt
  have high := value.toInt_lt
  omega

theorem tempText_zerosField (stack : Memory) (value : BitVec 32) :
    tempText stack (cstr "%02d") value = some (zerosField 2 value.toInt) := by
  apply tempText_eq stack [.zero] (.number 1 [])
  · simp
  · exact show 2 < 2 ^ 31 by decide
  · rfl
  · exact zerosField_bounds (natAbs_toInt_lt value)

theorem tempText_blanksField (stack : Memory) (value : BitVec 32) :
    tempText stack (cstr "%2d") value = some (blanksField 2 value.toInt) := by
  apply tempText_eq stack [] (.number 1 [])
  · simp
  · exact show 2 < 2 ^ 31 by decide
  · exact List.append_assoc ..
  · exact blanksField_bounds (by decide) (natAbs_toInt_lt value)

theorem tempText_plain (stack : Memory) (value : BitVec 32) :
    tempText stack (cstr "%d") value = some (blanksField 0 value.toInt) := by
  apply tempText_eq stack [] .absent
  · simp
  · exact show 0 < 2 ^ 31 by decide
  · exact List.append_assoc ..
  · exact blanksField_bounds (by decide) (natAbs_toInt_lt value)

end Numbers

section Fields

variable {tm : Tm} {y : CChar}

theorem tableEntry_eq {names : List String} {last : ℤ} (whole : names.length = last + 1) (index : BitVec 32) :
    tableEntry names last index = nameText names index.toInt := by
  rw [tableEntry, nameText]
  apply congrArg asciis
  by_cases negative : 0 ≤ index.toInt
  · have value : index.toInt = index.toNat := by
      rw [BitVec.toInt_eq_toNat_cond] at negative ⊢
      by_cases small : 2 * index.toNat < 2 ^ 32
      · rw [if_pos small]
      · rw [if_neg small] at negative
        omega
    rw [if_pos negative, value, Int.toNat_natCast, List.getD_eq_getElem?_getD, List.getD_eq_getElem?_getD]
    by_cases inside : index.toNat < names.length
    · rw [if_pos ⟨by omega, by omega⟩, List.getElem?_eq_getElem inside]
      rfl
    · rw [if_neg (by omega), List.getElem?_eq_none (by omega)]
      rfl
  · rw [if_neg negative, if_neg fun both => negative both.1]

theorem hour12_eq (tm : Tm) : (if tm.hour.srem 12 ≠ 0 then tm.hour.srem 12 else 12).toInt = tm.hour12 := by
  have remainder : (tm.hour.srem 12).toInt = tm.hour.toInt.tmod 12 := BitVec.toInt_srem ..
  rw [Tm.hour12, ← remainder]
  by_cases zero : tm.hour.srem 12 = 0
  · rw [if_neg (not_not.mpr zero), zero, if_pos (by decide)]
    decide
  · rw [if_pos zero, if_neg]
    intro same
    exact zero (BitVec.toInt_inj.mp (same.trans (by decide)))

theorem month_eq (tm : Tm) : (tm.mon + 1).toInt = tm.month := BitVec.toInt_add ..

theorem fullYear_eq (tm : Tm) : (tm.year + 1900).toInt = tm.fullYear := BitVec.toInt_add ..

theorem yearOfCentury_eq (tm : Tm) : ((tm.year + 1900).srem 100).toInt = tm.fullYear.tmod 100 := by
  rw [← fullYear_eq]
  exact BitVec.toInt_srem ..

/-- A branch of the `switch` leads to the given text: as `sub`, or as the letter itself in the default case. -/
def Gives (y : CChar) (branch : Option (Option (List Byte))) (text : List Byte) : Prop :=
  branch = none ∧ text = [y.byte] ∨ branch = some (some text)

theorem Gives.ite {c : Prop} [Decidable c] {first others : Option (Option (List Byte))} {text otherText : List Byte}
    (here : Gives y first text) (later : Gives y others otherText) :
    Gives y (if c then first else others) (if c then text else otherText) := by
  by_cases taken : c
  · rwa [if_pos taken, if_pos taken]
  · rwa [if_neg taken, if_neg taken]

theorem gives_name {names : List String} {last : ℤ} (whole : names.length = last + 1) (index : BitVec 32) :
    Gives y (some (some (tableEntry names last index))) (nameText names index.toInt) :=
  .inr (by rw [tableEntry_eq whole])

theorem gives_number (stack : Memory) {value : BitVec 32} {number : ℤ} (same : value.toInt = number) :
    Gives y (some (tempText stack (cstr "%02d") value)) (zerosField 2 number) :=
  .inr (by rw [tempText_zerosField, same])

/-- The `switch` on a letter gives the text that it stands for. -/
theorem substitution_gives (stack : Memory) (tm : Tm) (y : CChar) :
    Gives y (substitution stack tm y) (tm.fieldText y) := by
  apply Gives.ite (gives_name rfl tm.wday)
  apply Gives.ite (gives_name rfl tm.wday)
  apply Gives.ite (gives_name rfl tm.mon)
  apply Gives.ite (gives_name rfl tm.mon)
  apply Gives.ite (gives_number stack rfl)
  apply Gives.ite (.inr (congrArg some (tempText_blanksField stack tm.mday)))
  apply Gives.ite (gives_number stack rfl)
  apply Gives.ite (gives_number stack (hour12_eq tm))
  apply Gives.ite (gives_number stack (month_eq tm))
  apply Gives.ite (gives_number stack rfl)
  apply Gives.ite (.inr rfl)
  apply Gives.ite (gives_number stack rfl)
  apply Gives.ite (.inr (congrArg some (fullYear_eq tm ▸ tempText_plain stack (tm.year + 1900))))
  apply Gives.ite (gives_number stack (yearOfCentury_eq tm))
  exact .inl ⟨rfl, rfl⟩

end Fields

section Expansion

variable {stack : Memory} {tm : Tm} {x y : CChar} {format front : CString} {sink : Sink Byte}

theorem expansion_cons (plain : x ≠ chr '%') (format : CString) :
    tm.expansion (x :: format) = x.byte :: tm.expansion format := by
  cases format with
  | nil => exact if_neg plain
  | cons y format => exact if_neg plain

theorem expansion_percent (y : CChar) (format : CString) :
    tm.expansion (chr '%' :: y :: format) = tm.fieldText y ++ tm.expansion format :=
  if_pos rfl

theorem loneFront_cons (plain : x ≠ chr '%') (format : CString) :
    loneFront (x :: format) = (loneFront format).map (x :: ·) := by
  cases format with
  | nil => exact if_neg plain
  | cons y format => exact if_neg plain

theorem not_loneReached_zero : ¬ tm.LoneReached 0 format := by
  rintro ⟨front, _, short⟩
  exact Nat.not_lt_zero _ short

theorem loneReached_cons (plain : x ≠ chr '%') (format : CString) (room : ℕ) :
    tm.LoneReached room (x :: format) ↔ tm.LoneReached (room - 1) format := by
  simp only [Tm.LoneReached, loneFront_cons plain, Option.map_eq_some_iff]
  constructor
  · rintro ⟨_, ⟨front, lone, rfl⟩, short⟩
    rw [expansion_cons plain, List.length_cons] at short
    exact ⟨front, lone, by omega⟩
  · rintro ⟨front, lone, short⟩
    refine ⟨x :: front, ⟨front, lone, rfl⟩, ?_⟩
    rw [expansion_cons plain, List.length_cons]
    omega

theorem loneReached_percent (y : CChar) (format : CString) (room : ℕ) :
    tm.LoneReached room (chr '%' :: y :: format) ↔ tm.LoneReached (room - (tm.fieldText y).length) format := by
  simp only [Tm.LoneReached, loneFront, if_pos, Option.map_eq_some_iff]
  constructor
  · rintro ⟨_, ⟨front, lone, rfl⟩, short⟩
    rw [expansion_percent, List.length_append] at short
    exact ⟨front, lone, by omega⟩
  · rintro ⟨front, lone, short⟩
    refine ⟨chr '%' :: y :: front, ⟨front, lone, rfl⟩, ?_⟩
    rw [expansion_percent, List.length_append]
    omega

end Expansion

section Loop

variable {stack : Memory} {tm : Tm} {x y : CChar} {format whole : CString} {sink : Sink Byte}
  {result : Option (Sink Byte)} {text : List Byte}

/-- The loop goes past the end of the format, or it writes the expansion as far as there is room. -/
def Expands (tm : Tm) (format : CString) (sink : Sink Byte) (result : Option (Sink Byte)) : Prop :=
  tm.LoneReached (sink.rem - 1) format ∧ result = none ∨
    ¬ tm.LoneReached (sink.rem - 1) format ∧ result = some (sink.fill (tm.expansion format))

theorem Expands.of_full (full : ¬ 1 < sink.rem) : Expands tm format sink (some sink) := by
  refine .inr ⟨?_, by rw [Sink.fill_of_full (by omega)]⟩
  rw [show sink.rem - 1 = 0 by omega]
  exact not_loneReached_zero

/-- A round that writes the text of the front of the format. -/
theorem Expands.step (reached : ∀ room, tm.LoneReached room whole ↔ tm.LoneReached (room - text.length) format)
    (expanded : tm.expansion whole = text ++ tm.expansion format)
    (later : Expands tm format (sink.fill text) result) : Expands tm whole sink result := by
  have room : (sink.fill text).rem - 1 = sink.rem - 1 - text.length := by
    rw [Sink.fill, Sink.puts_rem, List.length_take]
    omega
  rwa [Expands, room, ← reached, Sink.fill_fill, ← expanded] at later

theorem strftimeLoop_expands (stack : Memory) (tm : Tm) (format : CString) (sink : Sink Byte) :
    Expands tm format sink (strftimeLoop stack tm format sink) := by
  fun_induction strftimeLoop stack tm format sink with
  | case1 sink =>
    refine .inr ⟨?_, by rw [Tm.expansion, Sink.fill_nil]⟩
    rintro ⟨front, none, _⟩
    cases none
  | case2 x sink room plain =>
    rw [Sink.put_eq_fill room]
    refine .inr ⟨?_, by rw [Tm.expansion, if_neg plain]⟩
    rintro ⟨front, none, _⟩
    rw [loneFront, if_neg plain] at none
    cases none
  | case3 x sink room lone =>
    -- the default case runs on the terminator
    refine .inl ⟨⟨[], if_pos (not_not.mp lone), ?_⟩, rfl⟩
    rw [Tm.expansion, List.length_nil]
    omega
  | case4 x sink full => exact .of_full full
  | case5 x y format sink room plain ih =>
    rw [Sink.put_eq_fill room] at ih ⊢
    exact ih.step (loneReached_cons plain _) (expansion_cons plain _)
  | case6 x format sink room percent ih =>
    obtain rfl := not_not.mp percent
    rw [Sink.put_eq_fill room] at ih ⊢
    exact ih.step (loneReached_percent _ _) (expansion_percent _ _)
  | case7 x y format sink room percent other default ih =>
    obtain rfl := not_not.mp percent
    rcases substitution_gives stack tm y with ⟨_, itself⟩ | found
    · rw [Sink.put_eq_fill room, ← itself] at ih ⊢
      exact ih.step (loneReached_percent _ _) (expansion_percent _ _)
    · rw [default] at found
      cases found
  | case8 x y format sink room percent other sub found ih =>
    obtain rfl := not_not.mp percent
    rcases substitution_gives stack tm y with ⟨default, _⟩ | given
    · rw [default] at found
      cases found
    · obtain rfl := Option.some.inj (found.symm.trans given)
      rw [Option.bind_some, Sink.putWhile_eq_fill]
      have later := ih (tm.fieldText y)
      rw [Sink.putWhile_eq_fill] at later
      exact later.step (loneReached_percent _ _) (expansion_percent _ _)
  | case9 x y format sink full => exact .of_full full

end Loop

/-- `strftime` leaves the first characters of the expansion, as many as there is room for, exactly if it does not
reach a percent sign at the end of the format before the room is used up. Otherwise it goes past the end of the
format. -/
theorem strftime_expansion_iff (stack memory : Memory) (s max : ℕ) (format : CString) (tm : Tm) (nonnull : s ≠ 0)
    (positive : 1 ≤ max) :
    ((∃ after, strftime stack memory s max (some format) (some tm) =
          some (min (tm.expansion format).length (max - 1), after) ∧
        Printed memory s max ((tm.expansion format).take (max - 1)) after) ↔
      ¬ tm.LoneReached (max - 1) format) ∧
    (tm.LoneReached (max - 1) format → strftime stack memory s max (some format) (some tm) = none) := by
  have call : strftime stack memory s max (some format) (some tm) =
      (strftimeLoop stack tm format ⟨memory, s, max⟩).map fun sink =>
        (sink.out - s, Function.update sink.mem sink.out 0) := if_neg (by omega)
  rcases strftimeLoop_expands stack tm format ⟨memory, s, max⟩ with ⟨lone, past⟩ | ⟨whole, filled⟩
  · rw [call, past, Option.map_none]
    refine ⟨iff_of_false ?_ (not_not.mpr lone), fun _ => rfl⟩
    rintro ⟨after, result, _⟩
    cases result
  · refine ⟨iff_of_true ?_ whole, fun lone => absurd lone whole⟩
    have length : ((tm.expansion format).take (max - 1)).length = min (tm.expansion format).length (max - 1) := by
      rw [List.length_take, Nat.min_comm]
    rw [call, filled, Option.map_some, Sink.fill, Sink.puts_out, length, Nat.add_sub_cancel_left, ← length]
    exact ⟨_, rfl, printed_puts memory s (by omega)⟩

theorem strftime_expansion_date : ∃ after,
    strftime (fun _ => 0) (fun _ => 1) 1 10 (some (cstr "%a %d.%m.%Y")) (some ⟨0, 0, 0, 7, 2, 126, 6⟩) =
      some (9, after) ∧ Printed (fun _ => 1) 1 10 (asciis "Sat 07.03") after := by
  have text : (Tm.mk 0 0 0 7 2 126 6).expansion (cstr "%a %d.%m.%Y") = asciis "Sat 07.03.2026" := by decide
  have whole : ¬ (Tm.mk 0 0 0 7 2 126 6).LoneReached 9 (cstr "%a %d.%m.%Y") := by
    rintro ⟨front, none, _⟩
    cases none
  have expanded := (strftime_expansion_iff (fun _ => 0) (fun _ => 1) 1 10 (cstr "%a %d.%m.%Y")
    ⟨0, 0, 0, 7, 2, 126, 6⟩ (by decide) (by decide)).1.mpr whole
  rw [text] at expanded
  exact expanded

/-- The terminator is copied and the loop goes on behind it. -/
theorem strftime_lone_percent :
    strftime (fun _ => 0) (fun _ => 0) 1 3 (some (cstr "a%")) (some ⟨0, 0, 0, 1, 0, 70, 4⟩) = none :=
  rfl

end CLite
