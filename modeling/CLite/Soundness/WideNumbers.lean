import CLite.Proofs.ScanFields
import CLite.Soundness.Strtol

/-! # 64-bit numbers

`strtoll` and `strtoull` convert what `strtol` and `strtoul` return, and `%lld` stores what `strtoll` returns. A
value is therefore read exactly as long as it fits in 32 bits.
-/

namespace CLite

open LongestPrefix

def LLONG_MAX : ℤ := 2 ^ 63 - 1

def LLONG_MIN : ℤ := -2 ^ 63

/-- The directive `%lld`. -/
def longLongDirective : IntegerDirective := ⟨false, [], .ll, .d⟩

variable {base : ℕ} {n : Numeral}

/-- `%lld` stores the value of a numeral. -/
def StoresLongLong (n : Numeral) : Prop :=
  ∃ word, vsscanf n.text (fieldsFormat [longLongDirective]) = some (1, [.longLong word]) ∧
    word.toInt = n.value 10

/-- The numeral behind its blanks. -/
def Numeral.bare (n : Numeral) : Numeral := { n with blanks := [] }

theorem Numeral.Valid.bare (valid : n.Valid base) : n.bare.Valid base :=
  ⟨by simp [Numeral.bare], valid.hex, valid.nonempty, valid.digits⟩

theorem Numeral.Valid.dropWhile_text (valid : n.Valid base) : n.text.dropWhile isSpace = n.bare.text := by
  have head : ∀ x ∈ (n.sign.text ++ n.core).head?, isSpace x = false := by
    intro x first
    cases sign : n.sign with
    | none =>
      rw [sign] at first
      exact (valid.core_head x first).1
    | plus =>
      rw [sign] at first
      obtain rfl : chr '+' = x := Option.some.inj first
      decide
    | minus =>
      rw [sign] at first
      obtain rfl : chr '-' = x := Option.some.inj first
      decide
  exact dropWhile_append_stop valid.blanks head

/-- `%lld` stores the 32-bit value of the numeral as a `long long`. -/
theorem vsscanf_longLong (valid : n.Valid 10) :
    vsscanf n.text (fieldsFormat [longLongDirective]) =
      some (1, [.longLong (BitVec.ofInt 64 (int32 (n.value 10)))]) := by
  have starts := valid.bare.starts
  rw [← valid.dropWhile_text] at starts
  have complete := valid.bare.not_barePrefix
  rw [← valid.dropWhile_text] at complete
  have round : scanRound n.text (chr '%') (longLongDirective.text ++ []) ⟨n.text, 0, []⟩ =
      .next [] ⟨(n.text.dropWhile isSpace).drop n.bare.text.length, 1,
        [.longLong (BitVec.ofInt 64 (int32 (n.value 10)))]⟩ := by
    rw [longLongDirective.round_eq]
    exact integer_numeral starts complete
  have format : fieldsFormat [longLongDirective] = chr '%' :: (longLongDirective.text ++ []) := rfl
  rw [vsscanf, format, scanLoop_next round, scanLoop_nil]
  rfl

theorem strtoll_eq_iff (valid : n.Valid base) :
    (strtoll n.text base).1 = n.value base ↔ LONG_MIN ≤ n.value base ∧ n.value base ≤ LONG_MAX := by
  rw [strtoll, strtol_value valid.starts]
  constructor
  · intro same
    rw [← same]
    exact int32_range _
  · rintro ⟨above, below⟩
    exact int32_of_range above below

theorem storesLongLong_iff (valid : n.Valid 10) :
    StoresLongLong n ↔ LONG_MIN ≤ n.value 10 ∧ n.value 10 ≤ LONG_MAX := by
  rw [StoresLongLong, vsscanf_longLong valid]
  constructor
  · rintro ⟨word, stored, same⟩
    obtain rfl : BitVec.ofInt 64 (int32 (n.value 10)) = word := by simpa using stored
    rw [toInt_ofInt_int32] at same
    rw [← same]
    exact int32_range _
  · rintro ⟨above, below⟩
    exact ⟨_, rfl, by rw [toInt_ofInt_int32, int32_of_range above below]⟩

theorem strtoull_value (valid : n.Valid base) : (strtoull n.text base).1 = n.value base % 2 ^ 32 := by
  rw [strtoull, strtoul, strtol_value valid.starts]
  exact Int.bmod_emod

theorem Numeral.value_nonneg (base : ℕ) (unsigned : n.sign ≠ .minus) : 0 ≤ n.value base := by
  unfold Numeral.value
  cases sign : n.sign with
  | minus => exact absurd sign unsigned
  | none => exact Int.natCast_nonneg _
  | plus => exact Int.natCast_nonneg _

theorem strtoull_eq_iff (valid : n.Valid base) (unsigned : n.sign ≠ .minus) :
    (strtoull n.text base).1 = n.value base ↔ n.value base ≤ ULONG_MAX := by
  have nonneg := n.value_nonneg base unsigned
  rw [strtoull_value valid, ULONG_MAX]
  omega

/-- `strtoll` returns and `%lld` stores the value of a numeral exactly if it is one of the 32-bit `long`, and
`strtoull` returns that of an unsigned numeral exactly if it is one of the 32-bit `unsigned long`. -/
theorem wide_numbers_iff (valid : n.Valid base) :
    ((strtoll n.text base).1 = n.value base ↔ LONG_MIN ≤ n.value base ∧ n.value base ≤ LONG_MAX) ∧
      (base = 10 → (StoresLongLong n ↔ LONG_MIN ≤ n.value base ∧ n.value base ≤ LONG_MAX)) ∧
      (n.sign ≠ .minus → ((strtoull n.text base).1 = n.value base ↔ n.value base ≤ ULONG_MAX)) := by
  refine ⟨strtoll_eq_iff valid, ?_, strtoull_eq_iff valid⟩
  rintro rfl
  exact storesLongLong_iff valid

/-- The numeral `-2147483648` in base 10. -/
def leastLong : Numeral := ⟨[chr ' '], .minus, none, ['2', '1', '4', '7', '4', '8', '3', '6', '4', '8'].map chr⟩

theorem leastLong_valid : leastLong.Valid 10 := ⟨by decide, by decide, by decide, by decide⟩

/-- The numeral `4294967295` in base 10. -/
def greatestUnsigned : Numeral := ⟨[], .none, none, ['4', '2', '9', '4', '9', '6', '7', '2', '9', '5'].map chr⟩

theorem greatestUnsigned_valid : greatestUnsigned.Valid 10 := ⟨by decide, by decide, by decide, by decide⟩

theorem wide_numbers_iff_extremes :
    (strtoll leastLong.text 10).1 = leastLong.value 10 ∧ StoresLongLong leastLong ∧
      (strtoull greatestUnsigned.text 10).1 = greatestUnsigned.value 10 :=
  ⟨(wide_numbers_iff leastLong_valid).1.mpr (by decide),
    ((wide_numbers_iff leastLong_valid).2.1 rfl).mpr (by decide),
    ((wide_numbers_iff greatestUnsigned_valid).2.2 (by decide)).mpr (by decide)⟩

/-- `4294967296` is within the 64-bit ranges and read as zero. -/
theorem wide_number_lost :
    LLONG_MIN ≤ beyondLong.value 10 ∧ beyondLong.value 10 ≤ LLONG_MAX ∧ (strtoll beyondLong.text 10).1 = 0 ∧
      vsscanf beyondLong.text (fieldsFormat [longLongDirective]) = some (1, [.longLong 0]) ∧
      (strtoull beyondLong.text 10).1 = 0 ∧ beyondLong.value 10 ≠ 0 := by
  refine ⟨by decide, by decide, by decide, ?_, by decide, by decide⟩
  rw [vsscanf_longLong beyondLong_valid]
  decide

end CLite
