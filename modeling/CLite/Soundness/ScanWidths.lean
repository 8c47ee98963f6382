import CLite.Proofs.ScanFields

/-! # Widths of integer conversions

`vsscanf` parses the width of an integer conversion and gives the whole input to `strtoll`, which knows of no
width. A field is therefore read as it should be exactly when the numeral in the input ends within it.
-/

namespace CLite

/-- A value goes through `long` into a pointer of each type but `long long`. -/
theorem store_int32_iff (length : ScanLength) (value : ℤ) :
    length.store (int32 value) = length.store value ↔
      (length = .ll → LONG_MIN ≤ value.bmod (2 ^ 64) ∧ value.bmod (2 ^ 64) ≤ LONG_MAX) := by
  have narrow {w : ℕ} (small : w ≤ 32) : BitVec.ofInt w (int32 value) = BitVec.ofInt w value := by
    rw [← BitVec.toInt_inj, BitVec.toInt_ofInt, BitVec.toInt_ofInt, int32,
      Int.bmod_bmod_of_dvd (Nat.pow_dvd_pow 2 small)]
  cases length with
  | ll =>
    simp only [ScanLength.store, Store.longLong.injEq, true_implies]
    rw [← BitVec.toInt_inj, toInt_ofInt_int32, BitVec.toInt_ofInt]
    constructor
    · intro same
      rw [← same]
      exact int32_range value
    · rintro ⟨above, below⟩
      have residue : value.bmod (2 ^ 64) % 2 ^ 64 = value % 2 ^ 64 := Int.bmod_emod
      rw [int32_eq_iff above below, Int.ModEq]
      omega
  | none => simp [ScanLength.store, narrow]
  | h => simp [ScanLength.store, narrow]
  | hh => simp [ScanLength.store, narrow]
  | l => simp [ScanLength.store, narrow]

section Fields

open IntegerDirective

variable {d : IntegerDirective} {str f : CString} {state : Scanning}

theorem Starts.take {base width : ℕ} {n : Numeral} {nptr : CString} (starts : Starts base n nptr)
    (fits : n.text.length ≤ width) : Starts base n (nptr.take width) :=
  ⟨starts.1, starts.2.take fits⟩

/-- A numeral within a width is one without it. -/
theorem Starts.within_width {base width : ℕ} {n : Numeral} {nptr : CString}
    (starts : Starts base n (nptr.take width)) : n.text <+: nptr ∧ n.text.length ≤ width :=
  List.prefix_take_iff.mp starts.2.within

/-- Whatever the width is, the numeral of the input is taken. -/
theorem IntegerDirective.round_numeral {n : Numeral} (starts : Starts d.base n (input state))
    (complete : ¬ BarePrefix d.base (input state)) : scanRound str (chr '%') (d.text ++ f) state =
      .next f ⟨(input state).drop n.text.length, state.matched + 1,
        if d.suppress then state.stores else state.stores ++ [d.length.store (int32 (n.value d.base))]⟩ := by
  rw [d.round_eq, ← storeInteger_isLong]
  exact integer_numeral starts complete

theorem IntegerDirective.round_leave
    (missing : ¬ ((∃ n, Starts d.base n (input state)) ∧ ¬ BarePrefix d.base (input state))) :
    scanRound str (chr '%') (d.text ++ f) state = .leave (skipped state) := by
  rw [d.round_eq]
  exact integer_leave missing

/-- A directive that reads its field meets no numeral that is longer than its width. -/
theorem IntegerDirective.Reads.length_le (reads : d.Reads str f state) {n : Numeral}
    (starts : Starts d.base n (input state)) (complete : ¬ BarePrefix d.base (input state)) :
    n.text.length ≤ d.widthValue := by
  by_contra long
  by_cases within : ∃ m, Starts d.base m (d.field state)
  · obtain ⟨m, inside⟩ := within
    have taken := reads.taken m inside
    have bound := starts.2.within.length_le
    obtain ⟨-, short⟩ := Starts.within_width inside
    rw [round_numeral starts complete] at taken
    simp only [IntegerDirective.taken, ScanRound.next.injEq, Scanning.mk.injEq, true_and] at taken
    have lengths := congrArg List.length taken.1
    rw [List.length_drop, List.length_drop] at lengths
    omega
  · have refused := reads.refused (not_exists.mp within)
    rw [round_numeral starts complete] at refused
    cases refused

/-- With a numeral in the input a directive reads its field exactly if the numeral fits. -/
theorem IntegerDirective.reads_iff_of_numeral {n : Numeral} (starts : Starts d.base n (input state))
    (complete : ¬ BarePrefix d.base (input state)) : d.Reads str f state ↔ d.Fits state := by
  constructor
  · intro reads m other
    obtain ⟨sameText, sameValue⟩ := starts.unique other
    have fits := reads.length_le starts complete
    rw [← sameText, ← sameValue]
    refine .inr ⟨complete, fits, ?_⟩
    intro stored long
    have taken := reads.taken n (starts.take fits)
    rw [round_numeral starts complete] at taken
    simp only [IntegerDirective.taken, stored, Bool.false_eq_true, if_false, ScanRound.next.injEq,
      Scanning.mk.injEq, List.append_cancel_left_eq, List.cons.injEq, and_true, true_and] at taken
    exact (store_int32_iff d.length (n.value d.base)).mp taken long
  · intro fit
    rcases fit n starts with ⟨bare, -⟩ | ⟨-, fits, value⟩
    · exact absurd bare complete
    have inside := starts.take fits
    have stored : d.suppress = false →
        d.length.store (int32 (n.value d.base)) = d.length.store (n.value d.base) := by
      intro unsuppressed
      exact (store_int32_iff d.length (n.value d.base)).mpr (value unsuppressed)
    refine ⟨?_, fun none => absurd inside (none n)⟩
    intro m other
    obtain ⟨sameText, sameValue⟩ := inside.unique other
    rw [round_numeral starts complete, IntegerDirective.taken, ← sameText, ← sameValue]
    cases suppressed : d.suppress with
    | true => rfl
    | false => rw [stored suppressed]

/-- Behind a prefix without digits the zero in it should be read, unless the width stops before it. -/
theorem IntegerDirective.reads_iff_of_bare {n : Numeral} (starts : Starts d.base n (input state))
    (bare : BarePrefix d.base (input state))
    (only : ∀ m : Numeral, m.Valid d.base → m.text <+: input state → m.text.length = n.text.length) :
    d.Reads str f state ↔ d.Fits state := by
  have round : scanRound str (chr '%') (d.text ++ f) state = .leave (skipped state) :=
    round_leave fun found => found.2 bare
  constructor
  · intro reads m other
    obtain ⟨sameText, -⟩ := starts.unique other
    refine .inl ⟨bare, ?_⟩
    rw [← sameText]
    by_contra fits
    have taken := reads.taken n (starts.take (by omega))
    rw [round] at taken
    cases taken
  · intro fit
    rcases fit n starts with ⟨-, long⟩ | ⟨complete, -⟩
    · refine ⟨?_, fun _ => round⟩
      intro m inside
      obtain ⟨within, short⟩ := Starts.within_width inside
      have length := only m inside.1 within
      omega
    · exact absurd bare complete

/-- A directive reads its field exactly if the numeral of the input fits. -/
theorem IntegerDirective.reads_iff (d : IntegerDirective) (str f : CString) (state : Scanning) :
    d.Reads str f state ↔ d.Fits state := by
  rcases strtol_reads d.base (input state) with
    ⟨n, starts, complete, -⟩ | ⟨n, starts, bare, -, only, -⟩ | ⟨absent, complete, -⟩
  · exact reads_iff_of_numeral starts complete
  · exact reads_iff_of_bare starts bare only
  · have round : scanRound str (chr '%') (d.text ++ f) state = .leave (skipped state) :=
      round_leave fun found => absent _ found.1.choose_spec
    refine iff_of_true ⟨?_, fun _ => round⟩ fun n starts => absurd starts (absent n)
    intro m inside
    obtain ⟨within, -⟩ := Starts.within_width inside
    obtain ⟨n, starts⟩ := exists_starts_iff.mpr ⟨m.text, within, inside.2.belongs⟩
    exact absurd starts (absent n)

/-- Directives that fit split the input into their fields. -/
theorem scanLoop_fieldsFormat {ds : List IntegerDirective} (fit : FieldsFit ds state) :
    ∃ final, scanLoop str (fieldsFormat ds) state = some final ∧ SplitsFields ds state final := by
  induction ds generalizing state with
  | nil => exact ⟨state, scanLoop_nil str state, .done⟩
  | cons d ds ih =>
    obtain ⟨here, later⟩ := fit
    have reads := (d.reads_iff str (fieldsFormat ds) state).mpr here
    have format : fieldsFormat (d :: ds) = chr '%' :: (d.text ++ fieldsFormat ds) := rfl
    rw [format]
    by_cases within : ∃ n, Starts d.base n (d.field state)
    · obtain ⟨n, starts⟩ := within
      obtain ⟨final, run, split⟩ := ih (later n starts)
      exact ⟨final, by rw [scanLoop_next (reads.taken n starts), run], .field starts split⟩
    · have absent := not_exists.mp within
      exact ⟨_, scanLoop_leave (reads.refused absent), .refused absent⟩

/-- An integer directive keeps to its width exactly if the numeral of the input fits in it, and directives that
all fit split the input into fields. -/
theorem scan_widths_iff (str : CString) (state : Scanning) :
    (∀ (d : IntegerDirective) (f : CString), d.Reads str f state ↔ d.Fits state) ∧
      ∀ ds, FieldsFit ds state → ∃ final, scanLoop str (fieldsFormat ds) state = some final ∧
        SplitsFields ds state final :=
  ⟨fun d f => d.reads_iff str f state, fun _ fit => scanLoop_fieldsFormat fit⟩

/-- The directive `%2d`. -/
def twoDigits : IntegerDirective := ⟨false, [2], .none, .d⟩

/-- `%2d` takes all four digits of `1234`. -/
theorem width_ignored :
    ¬ twoDigits.Reads (['1', '2', '3', '4'].map chr) (fieldsFormat [twoDigits])
      ⟨['1', '2', '3', '4'].map chr, 0, []⟩ := by
  rw [IntegerDirective.reads_iff]
  intro fits
  have valid : Numeral.Valid 10 ⟨[], .none, none, ['1', '2', '3', '4'].map chr⟩ :=
    ⟨by decide, by decide, by decide, by decide⟩
  rcases fits _ valid.starts with ⟨⟨decimal, -⟩, -⟩ | ⟨-, short, -⟩
  · exact absurd decimal (by decide)
  · exact absurd short (by decide)

end Fields

end CLite
