import CLite.Proofs.Numerals

/-! # `strtol`

`strtol` takes the longest numeral unless the string starts with a bare hexadecimal prefix, and its value is right
within the range of `long`. Beyond that range the value wraps, where it should stay at the limit.
-/

namespace CLite

variable {base : ℕ} {nptr : CString}

/-- `strtol` takes the longest numeral and returns its value if that is a `long`; without a numeral it returns
zero and the start of the string. -/
def TakesLongest (base : ℕ) (nptr : CString) : Prop :=
  (∀ n, Starts base n nptr → (strtol nptr base).2 = nptr.drop n.text.length ∧
    (LONG_MIN ≤ n.value base → n.value base ≤ LONG_MAX → (strtol nptr base).1 = n.value base)) ∧
  ((∀ p, p <+: nptr → ¬ IsNumeralText base p) → strtol nptr base = (0, nptr))

/-- At a bare prefix `strtol` stays at the start of the string. -/
theorem not_takesLongest (bare : BarePrefix base nptr) : ¬ TakesLongest base nptr := by
  rintro ⟨takes, -⟩
  rcases strtol_reads base nptr with ⟨-, -, complete, -⟩ | ⟨n, starts, -, -, -, read⟩ | ⟨-, complete, -⟩
  · exact complete bare
  · have ended := congrArg List.length (takes n starts).1
    have positive := starts.length_pos
    have bound := starts.2.within.length_le
    rw [read, List.length_drop] at ended
    dsimp only at ended
    omega
  · exact complete bare

/-- `strtol` takes the longest numeral exactly if the string does not start with a bare prefix. -/
theorem strtol_longest_iff (base : ℕ) (nptr : CString) : TakesLongest base nptr ↔ ¬ BarePrefix base nptr := by
  rcases strtol_reads base nptr with ⟨n, starts, complete, read⟩ | ⟨-, -, bare, -, -, -⟩ | ⟨absent, complete, read⟩
  · refine iff_of_true ⟨?_, ?_⟩ complete
    · intro m other
      obtain ⟨text, value⟩ := starts.unique other
      rw [read, ← text, ← value]
      exact ⟨rfl, int32_of_range⟩
    · intro absent
      exact absurd starts.2.belongs (absent _ starts.2.within)
  · exact iff_of_false (not_takesLongest bare) (not_not.mpr bare)
  · refine iff_of_true ⟨?_, fun _ => read⟩ complete
    intro m starts
    exact absurd starts (absent m)

/-- The numeral of `0xg` is its zero, and `strtol` finds none. -/
theorem bare_prefix_lost : ¬ TakesLongest 16 (['0', 'x', 'g'].map chr) :=
  not_takesLongest ⟨.inr rfl, [], .none, chr 'x', [chr 'g'], rfl, by simp, .inl rfl, by decide⟩

/-! ## Values beyond the range -/

/-- The result is the limit for a value beyond it. -/
def Saturates (result : ℤ) (base : ℕ) (nptr : CString) : Prop :=
  ∀ n, Starts base n nptr → (LONG_MAX < n.value base → result = LONG_MAX) ∧
    (n.value base < LONG_MIN → result = LONG_MIN)

def SaturatesUnsigned (result : ℤ) (base : ℕ) (nptr : CString) : Prop :=
  ∀ n, Starts base n nptr → ULONG_MAX < n.value base → result = ULONG_MAX

/-- A value beyond the range that is congruent to the limit on its side. -/
def LongWrapsToLimit (base : ℕ) (nptr : CString) : Prop :=
  ∀ n, Starts base n nptr → (LONG_MAX < n.value base → n.value base ≡ LONG_MAX [ZMOD 2 ^ 32]) ∧
    (n.value base < LONG_MIN → n.value base ≡ LONG_MIN [ZMOD 2 ^ 32])

def UnsignedWrapsToLimit (base : ℕ) (nptr : CString) : Prop :=
  ∀ n, Starts base n nptr → ULONG_MAX < n.value base → n.value base ≡ ULONG_MAX [ZMOD 2 ^ 32]

/-- Whatever the string starts with, its value is returned modulo 2 to the 32. -/
theorem strtol_value {n : Numeral} (starts : Starts base n nptr) : (strtol nptr base).1 = int32 (n.value base) := by
  rcases strtol_reads base nptr with ⟨m, other, -, read⟩ | ⟨m, other, -, zero, -, read⟩ | ⟨absent, -, -⟩
  · rw [read, (starts.unique other).2]
  · rw [read, (starts.unique other).2, zero]
    rfl
  · exact absurd starts (absent n)

theorem saturates_iff (base : ℕ) (nptr : CString) :
    Saturates (strtol nptr base).1 base nptr ↔ LongWrapsToLimit base nptr := by
  refine forall₂_congr fun n starts => ?_
  rw [strtol_value starts, int32_eq_iff (by decide) (by decide), int32_eq_iff (by decide) (by decide)]

theorem saturatesUnsigned_iff (base : ℕ) (nptr : CString) :
    SaturatesUnsigned (strtoul nptr base).1 base nptr ↔ UnsignedWrapsToLimit base nptr := by
  refine forall₂_congr fun n starts => imp_congr_right fun _ => ?_
  have residue : int32 (n.value base) % 2 ^ 32 = n.value base % 2 ^ 32 := Int.bmod_emod
  rw [strtoul, strtol_value starts, residue, Int.ModEq]
  rfl

/-- A value that wraps to its limit is returned clamped to the range. -/
theorem LongWrapsToLimit.clamped (wraps : LongWrapsToLimit base nptr) {n : Numeral} (starts : Starts base n nptr) :
    (strtol nptr base).1 = max LONG_MIN (min LONG_MAX (n.value base)) := by
  obtain ⟨above, below⟩ := ((saturates_iff base nptr).mpr wraps) n starts
  rcases lt_or_ge LONG_MAX (n.value base) with high | notHigh
  · rw [above high, min_eq_left high.le]
    rfl
  · rcases lt_or_ge (n.value base) LONG_MIN with low | notLow
    · rw [below low, min_eq_right notHigh, max_eq_left low.le]
    · rw [strtol_value starts, int32_of_range notLow notHigh, min_eq_right notHigh, max_eq_right notLow]

/-- `strtol`, `atol` and `strtoul` stay at their limits exactly for the values beyond them that wrap to the limit,
and on strings whose values do, the result is monotone in the value. -/
theorem strtol_saturates_iff (base : ℕ) (nptr : CString) :
    (Saturates (strtol nptr base).1 base nptr ↔ LongWrapsToLimit base nptr) ∧
      (Saturates (atol nptr) 10 nptr ↔ LongWrapsToLimit 10 nptr) ∧
      (SaturatesUnsigned (strtoul nptr base).1 base nptr ↔ UnsignedWrapsToLimit base nptr) ∧
      ∀ base' other, LongWrapsToLimit base nptr → LongWrapsToLimit base' other → ∀ n m, Starts base n nptr →
        Starts base' m other → n.value base ≤ m.value base' → (strtol nptr base).1 ≤ (strtol other base').1 := by
  refine ⟨saturates_iff base nptr, saturates_iff 10 nptr, saturatesUnsigned_iff base nptr, ?_⟩
  intro base' other wraps wraps' n m starts starts' smaller
  rw [wraps.clamped starts, wraps'.clamped starts']
  exact max_le_max_left _ (min_le_min_left _ smaller)

/-- The first value beyond all three ranges. -/
def beyondLong : Numeral := ⟨[], .none, none, ['4', '2', '9', '4', '9', '6', '7', '2', '9', '6'].map chr⟩

theorem beyondLong_valid : beyondLong.Valid 10 := ⟨by decide, by decide, by decide, by decide⟩

/-- The value of `4294967296` is returned as zero. -/
theorem strtol_wraps_to_zero :
    ¬ Saturates (strtol beyondLong.text 10).1 10 beyondLong.text ∧
      ¬ Saturates (atol beyondLong.text) 10 beyondLong.text ∧
      ¬ SaturatesUnsigned (strtoul beyondLong.text 10).1 10 beyondLong.text := by
  have starts := beyondLong_valid.starts
  refine ⟨?_, ?_, ?_⟩
  · intro saturates
    exact absurd ((saturates _ starts).1 (by decide)) (by decide)
  · intro saturates
    exact absurd ((saturates _ starts).1 (by decide)) (by decide)
  · intro saturates
    exact absurd (saturates _ starts (by decide)) (by decide)

end CLite
