import CLite.Proofs.Numerals
import CLite.Proofs.PrintDirectives
import CLite.Spec.ScanDirectives

/-! # Rounds of `vsscanf`

A round at a percent sign reads the directive and acts on it. What it does to the input depends on the directive
alone: the integer conversions take what `strtol` takes, in whatever width.
-/

namespace CLite

section Loop

theorem scanLoop_nil (text : CString) (state : Scanning) : scanLoop text [] state = some state := by
  rw [scanLoop]

theorem scanLoop_next {text : CString} {x : CChar} {f f' : CString} {state state' : Scanning}
    (round : scanRound text x f state = .next f' state') :
    scanLoop text (x :: f) state = scanLoop text f' state' := by
  rw [scanLoop]
  split
  · next leave => rw [round] at leave; cases leave
  · next undefined => rw [round] at undefined; cases undefined
  · next f'' state'' same =>
    rw [round] at same
    cases same
    rfl

theorem scanLoop_leave {text : CString} {x : CChar} {f : CString} {state final : Scanning}
    (round : scanRound text x f state = .leave final) : scanLoop text (x :: f) state = some final := by
  rw [scanLoop]
  split
  · next state' same =>
    rw [round] at same
    cases same
    rfl
  · next undefined => rw [round] at undefined; cases undefined
  · next next => rw [round] at next; cases next

theorem scanLoop_undefined {text : CString} {x : CChar} {f : CString} {state : Scanning}
    (round : scanRound text x f state = .undefined) : scanLoop text (x :: f) state = none := by
  rw [scanLoop]
  split
  · next leave => rw [round] at leave; cases leave
  · rfl
  · next next => rw [round] at next; cases next

end Loop

section Parsing

theorem numberLoop_takeWhile (value : ℤ) (f : CString) :
    numberLoop value f = ((numberLoop value (f.takeWhile isDecimal)).1, f.dropWhile isDecimal) := by
  induction f generalizing value with
  | nil => rfl
  | cons x f ih =>
    cases digit : isDecimal x with
    | true =>
      rw [List.takeWhile_cons_of_pos digit, List.dropWhile_cons_of_pos digit, numberLoop, if_pos digit, ih,
        numberLoop, if_pos digit]
    | false =>
      rw [List.takeWhile_cons_of_neg (by simp [digit]), List.dropWhile_cons_of_neg (by simp [digit])]
      simp [numberLoop, digit]

theorem scanLength_eq (f : CString) : scanLength f = ((readLength f).1.isLong, (readLength f).2) := by
  cases f with
  | nil => rfl
  | cons x rest =>
    rw [scanLength, readLength]
    split_ifs <;> rfl

/-- The width of a directive in the arithmetic of `int`. -/
def widthParsed (width : CString) : ℤ := (numberLoop 0 width).1

/-- A round at a percent sign acts on what the directive says. -/
theorem scanRound_options {f rest width : CString} {suppress : Bool} {length : ScanLength}
    (opened : f.head? ≠ some (chr '%')) (read : readOptions f = (suppress, width, length, rest)) (str : CString)
    (state : Scanning) :
    scanRound str (chr '%') f state =
      state.conversion str rest.head? (widthParsed width) length.isLong suppress rest.tail := by
  have percent : isSpace (chr '%') = false := by decide
  have directive (suppress : Bool) (f : CString) : state.directive str suppress f =
      state.conversion str (readLength (f.dropWhile isDecimal)).2.head? (widthParsed (f.takeWhile isDecimal))
        (readLength (f.dropWhile isDecimal)).1.isLong suppress (readLength (f.dropWhile isDecimal)).2.tail := by
    rw [Scanning.directive, numberLoop_takeWhile]
    dsimp only
    rw [scanLength_eq]
    rfl
  rw [scanRound, if_neg (by simp [percent]), if_neg (by simp), if_neg opened]
  split
  next star =>
    rw [readOptions, star] at read
    simp only [decide_true, if_true, Prod.mk.injEq] at read
    obtain ⟨rfl, rfl, rfl, rfl⟩ := read
    exact directive true f.tail
  next noStar =>
    rw [readOptions] at read
    simp only [noStar, decide_false, Bool.false_eq_true, if_false, Prod.mk.injEq] at read
    obtain ⟨rfl, rfl, rfl, rfl⟩ := read
    exact directive false f

theorem scanRound_directive {f rest : CString} {d : ScanDirective} (opened : f.head? ≠ some (chr '%'))
    (read : readDirective f = some (d, rest)) (str : CString) (state : Scanning) :
    scanRound str (chr '%') f state =
      state.conversion str (some d.conversion) (widthParsed d.width) d.length.isLong d.suppress rest := by
  unfold readDirective at read
  split at read
  · cases read
  · next options =>
    cases read
    exact scanRound_options opened options str state

/-- A format that is cut short does not start with a second percent sign. -/
theorem opened_of_cut {f : CString} (cut : readDirective f = none) : f.head? ≠ some (chr '%') := by
  intro percent
  obtain ⟨rest, rfl⟩ := List.head?_eq_some_iff.mp percent
  cases cut

/-- A round at a directive that is cut short takes the terminator for its conversion. -/
theorem scanRound_cut {f : CString} (cut : readDirective f = none) (str : CString) (state : Scanning) :
    scanRound str (chr '%') f state =
      if state.s.dropWhile isSpace = [] then .leave { state with s := state.s.dropWhile isSpace }
      else .undefined := by
  have opened := opened_of_cut cut
  unfold readDirective at cut
  split at cut
  · next options =>
    rw [scanRound_options opened options, Scanning.conversion, if_neg (by simp), if_neg (by simp)]
    rfl
  · cases cut

end Parsing

section Integers

variable {base : ℕ} {state : Scanning} {isLong : ℤ} {suppress : Bool} {f : CString}

/-- An integer conversion takes the numeral that the input starts with. -/
theorem integer_numeral {n : Numeral} (starts : Starts base n state.s) (complete : ¬ BarePrefix base state.s) :
    state.integer base isLong suppress f =
      .next f ⟨state.s.drop n.text.length, state.matched + 1,
        if suppress then state.stores else state.stores ++ [storeInteger isLong (int32 (n.value base))]⟩ := by
  have read : strtol state.s base = (int32 (n.value base), state.s.drop n.text.length) := by
    rcases strtol_reads base state.s with ⟨m, other, -, read⟩ | ⟨-, -, bare, -, -, -⟩ | ⟨absent, -, -⟩
    · rw [read, (starts.unique other).1, (starts.unique other).2]
    · exact absurd bare complete
    · exact absurd starts (absent n)
  have positive := starts.length_pos
  have bound := starts.2.within.length_le
  have shorter : (state.s.drop n.text.length).length ≠ state.s.length := by
    rw [List.length_drop]
    omega
  simp only [Scanning.integer, read, if_neg shorter]

/-- Without a numeral, or at a bare prefix, an integer conversion ends the loop. -/
theorem integer_leave (missing : ¬ ((∃ n, Starts base n state.s) ∧ ¬ BarePrefix base state.s)) :
    state.integer base isLong suppress f = .leave state := by
  have read : strtol state.s base = (0, state.s) := by
    rcases strtol_reads base state.s with ⟨n, starts, complete, -⟩ | ⟨-, -, -, -, -, read⟩ | ⟨-, -, read⟩
    · exact absurd ⟨⟨n, starts⟩, complete⟩ missing
    · exact read
    · exact read
  simp only [Scanning.integer, read, if_true]

theorem storeInteger_isLong (length : ScanLength) (value : ℤ) :
    storeInteger length.isLong value = length.store value := by
  cases length <;> rfl

/-- The integer conversions skip blanks and read a number in their base. -/
theorem afterBlanks_integer {conversion : CChar} (integer : integerBase conversion = some base) (width : ℤ)
    (nonempty : state.s.dropWhile isSpace ≠ []) :
    state.afterBlanks (some conversion) width isLong suppress f =
      Scanning.integer { state with s := state.s.dropWhile isSpace } base isLong suppress f := by
  unfold integerBase at integer
  simp only [Scanning.afterBlanks, if_neg nonempty]
  split_ifs at integer with hex octal decimal
  · cases integer
    rcases hex with rfl | rfl <;> rfl
  · cases integer
    rw [octal]
    rfl
  · cases integer
    rcases decimal with rfl | rfl <;> rfl

theorem integerBase_plain {conversion : CChar} (integer : integerBase conversion = some base) :
    conversion ≠ chr 'n' ∧ conversion ≠ chr 'c' ∧ conversion ≠ chr 's' := by
  refine ⟨?_, ?_, ?_⟩ <;> rintro rfl <;> cases integer

/-- A round at an integer directive. -/
theorem conversion_integer {conversion : CChar} (integer : integerBase conversion = some base) (str : CString)
    (width : ℤ) :
    state.conversion str (some conversion) width isLong suppress f =
      Scanning.integer { state with s := state.s.dropWhile isSpace } base isLong suppress f := by
  obtain ⟨notCount, notCharacters, -⟩ := integerBase_plain integer
  rw [Scanning.conversion, if_neg (by simpa using notCount), if_neg (by simpa using notCharacters)]
  by_cases empty : state.s.dropWhile isSpace = []
  · have absent : ¬ ((∃ n, Starts base n []) ∧ ¬ BarePrefix base []) := by
      rintro ⟨⟨n, starts⟩, -⟩
      have positive := starts.length_pos
      have bound := starts.2.within.length_le
      rw [List.length_nil] at bound
      omega
    have leave : Scanning.integer { state with s := [] } base isLong suppress f = .leave { state with s := [] } :=
      integer_leave absent
    simp only [Scanning.afterBlanks, empty, if_true, leave]
  · exact afterBlanks_integer integer width empty

end Integers

section Cases

variable {str rest : CString} {d : ScanDirective} {state : Scanning}

/-- What a round at a directive can do. -/
inductive DirectiveRound (str : CString) (d : ScanDirective) (rest : CString) (state : Scanning) : ScanRound → Prop
  | counted (own : d.slot = some .count) :
      DirectiveRound str d rest state (.next rest { state with
        stores := if d.suppress then state.stores
          else state.stores ++ [.int (BitVec.ofNat 32 (str.length - state.s.length))] })
  | matched {slot : Slot} {store : Store} {s : CString} (own : d.slot = some slot) (found : d.Matches state.s)
      (holds : slot.Holds store) (within : s <:+ state.s) :
      DirectiveRound str d rest state (.next rest ⟨s, state.matched + 1,
        if d.suppress then state.stores else state.stores ++ [store]⟩)
  | passed (unknown : d.slot = none) :
      DirectiveRound str d rest state (.next rest { state with s := state.s.dropWhile isSpace })
  | refused {s : CString} (missing : ¬ d.Matches state.s) (within : s <:+ state.s) :
      DirectiveRound str d rest state (.leave { state with s := s })

/-- A directive of an integer. -/
theorem directiveRound_integer {base : ℕ} (integer : integerBase d.conversion = some base) :
    DirectiveRound str d rest state
      (state.conversion str (some d.conversion) (widthParsed d.width) d.length.isLong d.suppress rest) := by
  obtain ⟨notCount, notCharacters, notString⟩ := integerBase_plain integer
  have own : d.slot = some (.integer d.length) := by
    simp [ScanDirective.slot, notCount, notCharacters, notString, integer]
  have found : d.Matches state.s ↔ (∃ n, Starts base n (state.s.dropWhile isSpace)) ∧
      ¬ BarePrefix base (state.s.dropWhile isSpace) := by
    simp [ScanDirective.Matches, own, integer]
  rw [conversion_integer integer]
  by_cases present : d.Matches state.s
  · obtain ⟨⟨n, starts⟩, complete⟩ := found.mp present
    have round : Scanning.integer { state with s := state.s.dropWhile isSpace } base d.length.isLong d.suppress rest =
        .next rest ⟨(state.s.dropWhile isSpace).drop n.text.length, state.matched + 1,
          if d.suppress then state.stores
          else state.stores ++ [storeInteger d.length.isLong (int32 (n.value base))]⟩ :=
      integer_numeral starts complete
    rw [round]
    exact .matched own present ⟨_, storeInteger_isLong ..⟩ ((List.drop_suffix ..).trans (List.dropWhile_suffix _))
  · have round : Scanning.integer { state with s := state.s.dropWhile isSpace } base d.length.isLong d.suppress rest =
        .leave { state with s := state.s.dropWhile isSpace } := integer_leave (mt found.mpr present)
    rw [round]
    exact .refused present (List.dropWhile_suffix _)

/-- A directive of a string or of an unknown conversion. -/
theorem directiveRound_blanks (notCount : d.conversion ≠ chr 'n') (notCharacters : d.conversion ≠ chr 'c')
    (noInteger : integerBase d.conversion = none) :
    DirectiveRound str d rest state
      (state.conversion str (some d.conversion) (widthParsed d.width) d.length.isLong d.suppress rest) := by
  have noBase := noInteger
  unfold integerBase at noBase
  split_ifs at noBase with hex octal decimal
  rw [Scanning.conversion, if_neg (by simpa using notCount), if_neg (by simpa using notCharacters)]
  simp only [Scanning.afterBlanks]
  rcases em (d.conversion = chr 's') with string | notString
  · have own : d.slot = some .string := by
      rw [ScanDirective.slot, if_neg notCount, if_neg notCharacters, if_pos string]
    have found : d.Matches state.s ↔ state.s.dropWhile isSpace ≠ [] := by simp [ScanDirective.Matches, own]
    split
    · next empty => exact .refused (mt found.mp (not_not.mpr empty)) (List.dropWhile_suffix _)
    · next nonempty =>
      have holds (text : CString) : Slot.Holds .string (.string text) := trivial
      exact .matched own (found.mpr nonempty) (holds _) ((List.drop_suffix ..).trans (List.dropWhile_suffix _))
  · have own : d.slot = none := by simp [ScanDirective.slot, notCount, notCharacters, notString, noInteger]
    have missing : ¬ d.Matches state.s := by simp [ScanDirective.Matches, own]
    split
    · exact .refused missing (List.dropWhile_suffix _)
    · exact .passed own

theorem directiveRound (str : CString) (d : ScanDirective) (rest : CString) (state : Scanning) :
    DirectiveRound str d rest state
      (state.conversion str (some d.conversion) (widthParsed d.width) d.length.isLong d.suppress rest) := by
  rcases em (d.conversion = chr 'n') with count | notCount
  · have own : d.slot = some .count := by simp [ScanDirective.slot, count]
    rw [Scanning.conversion, if_pos (by rw [count])]
    exact .counted own
  rcases em (d.conversion = chr 'c') with characters | notCharacters
  · have own : d.slot = some .characters := by
      rw [ScanDirective.slot, if_neg notCount, if_pos characters]
    have found : d.Matches state.s ↔ state.s ≠ [] := by simp [ScanDirective.Matches, own]
    rw [Scanning.conversion, if_neg (by simpa using notCount), if_pos (by rw [characters])]
    split
    · next empty => exact .refused (s := state.s) (mt found.mp (not_not.mpr empty)) List.suffix_rfl
    · next nonempty =>
      have holds (text : CString) : Slot.Holds .characters (.characters text) := trivial
      exact .matched own (found.mpr nonempty) (holds _) (List.drop_suffix ..)
  cases integer : integerBase d.conversion with
  | some base => exact directiveRound_integer integer
  | none => exact directiveRound_blanks notCount notCharacters integer

/-- What a round can do at a character of the format. -/
inductive RoundAt (str : CString) (state : Scanning) : CChar → CString → ScanRound → Prop
  | blank {x : CChar} {f : CString} (space : isSpace x = true) :
      RoundAt str state x f (.next (f.dropWhile isSpace) { state with s := state.s.dropWhile isSpace })
  | literal {x : CChar} {f : CString} (plain : isSpace x = false) (ordinary : x ≠ chr '%')
      (same : state.s.head? = some x) : RoundAt str state x f (.next f { state with s := state.s.tail })
  | mismatch {x : CChar} {f : CString} (plain : isSpace x = false) (ordinary : x ≠ chr '%')
      (differs : state.s.head? ≠ some x) : RoundAt str state x f (.leave state)
  | percent {f : CString} (same : state.s.head? = some (chr '%')) :
      RoundAt str state (chr '%') (chr '%' :: f) (.next f { state with s := state.s.tail })
  | percentMismatch {f : CString} (differs : state.s.head? ≠ some (chr '%')) :
      RoundAt str state (chr '%') (chr '%' :: f) (.leave state)
  | directive {f rest : CString} {d : ScanDirective} {round : ScanRound} (opened : f.head? ≠ some (chr '%'))
      (read : readDirective f = some (d, rest)) (acts : DirectiveRound str d rest state round) :
      RoundAt str state (chr '%') f round
  | cut {f : CString} (cut : readDirective f = none) :
      RoundAt str state (chr '%') f (if state.s.dropWhile isSpace = [] then
        .leave { state with s := state.s.dropWhile isSpace } else .undefined)

theorem roundAt (str : CString) (x : CChar) (f : CString) (state : Scanning) :
    RoundAt str state x f (scanRound str x f state) := by
  cases space : isSpace x with
  | true =>
    rw [scanRound, if_pos space]
    exact .blank space
  | false =>
    rcases em (x = chr '%') with rfl | ordinary
    · by_cases opened : f.head? = some (chr '%')
      · obtain ⟨rest, rfl⟩ := List.head?_eq_some_iff.mp opened
        have round : scanRound str (chr '%') (chr '%' :: rest) state = state.literal (chr '%') rest := by
          rw [scanRound, if_neg (by simp [space]), if_neg (by simp), if_pos opened]
          rfl
        rw [round, Scanning.literal]
        split
        · next same => exact .percent same
        · next differs => exact .percentMismatch differs
      · cases read : readDirective f with
        | none =>
          rw [scanRound_cut read]
          exact .cut read
        | some directive =>
          obtain ⟨d, rest⟩ := directive
          rw [scanRound_directive opened read]
          exact .directive opened read (directiveRound str d rest state)
    · rw [scanRound, if_neg (by simp [space]), if_pos ordinary, Scanning.literal]
      split
      · next same => exact .literal space ordinary same
      · next differs => exact .mismatch space ordinary differs

end Cases

end CLite
