import CLite.Proofs.PrintFormats
import CLite.Spec.PrintTraces

/-! # Bounds of `vsnprintf`

The format cursor moves behind the terminator at a directive that is cut short and at no other: the default case
takes the terminator for a conversion character and passes over it. A `%f` that is longer than its buffer is the only
other way to lose the cursor.
-/

namespace CLite

open LoopTrace ByteMemory BoundedSink

section Conversions

variable {args : Arguments}

theorem numBuf_length (val : ℕ) : (numBuf val 10 false false).length = max 1 (Nat.digits 10 val).length := by
  rcases eq_or_ne val 0 with rfl | nonzero
  · rfl
  · have digits : 0 < (Nat.digits 10 val).length :=
      List.length_pos_iff.mpr (Nat.digits_ne_nil_iff_ne_zero.mpr nonzero)
    simp only [numBuf, nonzero, if_false, Bool.false_eq_true, List.append_nil, List.length_map]
    omega

theorem fixedField_eq_none_iff (value : Rounded) (prec : ℕ) :
    fixedField value prec = none ↔ 64 ≤ fixedLength value prec := by
  have sign : (if value.negative then [ascii '-'] else []).length = if value.negative then 1 else 0 := by
    split <;> rfl
  have fraction : (if 0 < prec then ascii '.' :: (List.range prec).map fun k =>
      ascii '0' + BitVec.ofInt 8 (min (value.digit k) 9) else []).length = if 0 < prec then prec + 1 else 0 := by
    split <;> simp
  simp only [fixedField, ite_eq_right_iff, reduceCtorEq, imp_false, not_lt, List.length_append, List.length_reverse,
    sign, fraction, numBuf_length, fixedLength]

theorem convert_eq_none_iff (d : Directive) (conv : CChar) (sink : Sink Byte) :
    d.convert args conv sink = none ↔
      conv = chr 'f' ∧ 64 ≤ fixedLength (args.rounded (args.double d.cursor) d.fixedPrecision) d.fixedPrecision := by
  rw [← fixedField_eq_none_iff]
  rcases em (conv = chr 'f') with rfl | notF
  · have fixed : d.convert args (chr 'f') sink = (d.putFixed args sink).map fun sink => (sink, d.cursor + 2) := rfl
    rw [fixed, Option.map_eq_none_iff, Directive.putFixed, Option.map_eq_none_iff]
    exact (and_iff_right rfl).symm
  · refine iff_of_false ?_ fun both => notF both.1
    have settled {chosen : Prop} [Decidable chosen] {after : Sink Byte × ℕ} {others : Option (Sink Byte × ℕ)}
        (defined : others ≠ none) : (if chosen then some after else others) ≠ none := by
      split
      · exact Option.some_ne_none after
      · exact defined
    rw [Directive.convert, if_neg notF]
    iterate 8 apply settled
    exact Option.some_ne_none _

theorem afterOptions_suffix (format : CString) : afterOptions format <:+ format := by
  have width (f : CString) : (if f.head? = some (chr '*') then f.tail else f.dropWhile isDecimal) <:+ f := by
    split
    · exact List.tail_suffix f
    · exact List.dropWhile_suffix _
  have precision (f : CString) : (if f.head? = some (chr '.') then
      if f.tail.head? = some (chr '*') then f.tail.tail else f.tail.dropWhile isDecimal else f) <:+ f := by
    split
    · exact (width f.tail).trans (List.tail_suffix f)
    · exact List.suffix_rfl
  unfold afterOptions
  exact (List.dropWhile_suffix _).trans ((precision _).trans ((width _).trans (List.dropWhile_suffix _)))

end Conversions

section Points

/-- What a round makes of a point. -/
inductive PrintMove (args : Arguments) : PrintPoint → PrintPoint → Prop where
  | step {x : CChar} {format : CString} {cursor : ℕ} {sink : Sink Byte} {after : Printing} (room : 1 < sink.rem)
      (step : printStep args x format cursor sink = some after) (suffix : after.format <:+ format) :
      PrintMove args (.head (some (x :: format)) cursor sink) (.head (some after.format) after.cursor after.sink)
  | cut {f : CString} {cursor cursor' : ℕ} {sink sink' : Sink Byte}
      (cut : PrintPoint.CutShort (.head (some f) cursor sink)) :
      PrintMove args (.head (some f) cursor sink) (.head none cursor' sink')
  | overrun {f : CString} {cursor : ℕ} {sink : Sink Byte}
      (overruns : PrintPoint.Overruns args (.head (some f) cursor sink)) :
      PrintMove args (.head (some f) cursor sink) .overrun

variable {args : Arguments} {p q : PrintPoint} {format : CString} {trace : List PrintPoint}

section Directive

variable {y : CChar} {rest : CString} {cursor : ℕ} {sink : Sink Byte}

theorem printPoint_directive (room : 1 < sink.rem) (opened : y ≠ chr '%') :
    printPoint args (.head (some (chr '%' :: y :: rest)) cursor sink) =
      match afterOptions (y :: rest) with
      | [] => some (.head none (parseDirective args (y :: rest) cursor).cursor (sink.offer 0))
      | conv :: tail =>
        match (parseDirective args (y :: rest) cursor).convert args conv sink with
        | none => some .overrun
        | some after => some (.head (some tail) after.2 after.1) := by
  simp only [printPoint, if_pos room, ne_eq, not_true_eq_false, if_false, if_neg opened, parseDirective_format]
  rfl

theorem printPoint_cut (cut : p.CutShort) : ∃ cursor sink, printPoint args p = some (.head none cursor sink) := by
  obtain ⟨room, opened, ended⟩ := cut
  rw [printPoint_directive room opened, ended]
  exact ⟨_, _, rfl⟩

theorem printPoint_overruns (overruns : p.Overruns args) : printPoint args p = some .overrun := by
  obtain ⟨room, opened, reached, rfl, long⟩ := overruns
  simp only [printPoint_directive room opened, reached, (convert_eq_none_iff ..).mpr ⟨rfl, long⟩]

theorem printMove_directive (room : 1 < sink.rem) (opened : y ≠ chr '%')
    (made : printPoint args (.head (some (chr '%' :: y :: rest)) cursor sink) = some q) :
    PrintMove args (.head (some (chr '%' :: y :: rest)) cursor sink) q := by
  rw [printPoint_directive room opened] at made
  cases reached : afterOptions (y :: rest) with
  | nil =>
    rw [reached] at made
    cases made
    exact .cut ⟨room, opened, reached⟩
  | cons conv tail =>
    have suffix : tail <:+ y :: rest := by
      have whole := afterOptions_suffix (y :: rest)
      rw [reached] at whole
      exact (List.suffix_cons ..).trans whole
    simp only [reached] at made
    cases converted : (parseDirective args (y :: rest) cursor).convert args conv sink with
    | none =>
      rw [converted] at made
      cases made
      obtain ⟨rfl, long⟩ := (convert_eq_none_iff ..).mp converted
      exact .overrun ⟨room, opened, reached, rfl, long⟩
    | some after =>
      rw [converted] at made
      cases made
      have step : printStep args (chr '%') (y :: rest) cursor sink = some ⟨tail, after.2, after.1⟩ := by
        simp only [printStep, ne_eq, not_true_eq_false, if_false, if_neg opened, parseDirective_format, reached,
          converted, Option.map_some]
      exact .step room step suffix

end Directive

theorem printMove (made : printPoint args p = some q) : PrintMove args p q := by
  match p with
  | .overrun => cases made
  | .head none _ _ => cases made
  | .head (some []) _ _ => cases made
  | .head (some (x :: format)) cursor sink =>
    by_cases room : 1 < sink.rem
    · rcases em (x = chr '%') with rfl | ordinary
      · match format with
        | [] =>
          have point : printPoint args (.head (some [chr '%']) cursor sink) = some (.head (some []) cursor sink) := by
            simp only [printPoint, if_pos room, ne_eq, not_true_eq_false, if_false]
          rw [point] at made
          cases made
          have step : printStep args (chr '%') [] cursor sink = some ⟨[], cursor, sink⟩ := by simp [printStep]
          exact .step room step List.suffix_rfl
        | y :: rest =>
          rcases em (y = chr '%') with rfl | opened
          · have point : printPoint args (.head (some (chr '%' :: chr '%' :: rest)) cursor sink) =
                some (.head (some rest) cursor (sink.put (ascii '%'))) := by
              simp only [printPoint, if_pos room, ne_eq, not_true_eq_false, if_false, if_true]
            rw [point] at made
            cases made
            have step : printStep args (chr '%') (chr '%' :: rest) cursor sink =
                some ⟨rest, cursor, sink.put (ascii '%')⟩ := by simp [printStep]
            exact .step room step (List.suffix_cons ..)
          · exact printMove_directive room opened made
      · simp only [printPoint, if_pos room, if_pos ordinary] at made
        cases made
        have step : printStep args x format cursor sink = some ⟨format, cursor, sink.put x.byte⟩ := if_pos ordinary
        exact .step room step List.suffix_rfl
    · simp only [printPoint, if_neg room] at made
      cases made

/-- The loop makes a round as long as there is room and the format has not ended. -/
theorem exists_printPoint (args : Arguments) (x : CChar) (format : CString) (cursor : ℕ) {sink : Sink Byte}
    (room : 1 < sink.rem) : ∃ q, printPoint args (.head (some (x :: format)) cursor sink) = some q := by
  simp only [printPoint, if_pos room]
  split
  · exact ⟨_, rfl⟩
  · split
    · exact ⟨_, rfl⟩
    · split
      · exact ⟨_, rfl⟩
      · split
        · exact ⟨_, rfl⟩
        · split <;> exact ⟨_, rfl⟩

/-- What is left of the format. -/
def printRoundsLeft : PrintPoint → ℕ
  | .head (some format) _ _ => format.length + 1
  | _ => 0

theorem PrintMove.roundsLeft_lt (made : PrintMove args p q) : printRoundsLeft q < printRoundsLeft p := by
  cases made with
  | step _ _ suffix =>
    have shorter := suffix.length_le
    simp only [printRoundsLeft, List.length_cons]
    omega
  | cut => exact Nat.succ_pos _
  | overrun => exact Nat.succ_pos _

end Points

section Runs

variable {args : Arguments} {memory : Memory} {str size cursor : ℕ} {sink : Sink Byte} {format f : CString}
  {trace : List PrintPoint}

theorem exists_printTrace (args : Arguments) (memory : Memory) (str size : ℕ) (format : CString) (cursor : ℕ) :
    ∃ trace, PrintTrace args memory str size format cursor trace := by
  unfold PrintTrace
  split
  · exact ⟨[], rfl⟩
  · exact exists_trace printRoundsLeft (fun _ _ made => (printMove made).roundsLeft_lt) _

theorem PrintTrace.unique {other : List PrintPoint} (one : PrintTrace args memory str size format cursor trace)
    (same : PrintTrace args memory str size format cursor other) : trace = other := by
  unfold PrintTrace at one same
  split at one
  · next absent =>
    rw [if_pos absent] at same
    exact one.trans same.symm
  · next present =>
    rw [if_neg present] at same
    exact Trace.unique one same

/-- No directive is cut short and no `%f` is too long for its buffer. -/
def PrintPoint.Safe (args : Arguments) (p : PrintPoint) : Prop := ¬ p.CutShort ∧ ¬ p.Overruns args

theorem printLoop_trace {p : PrintPoint} (one : Trace (printPoint args) p trace)
    (head : p = .head (some f) cursor sink) (safe : ∀ q ∈ trace, PrintPoint.Safe args q) :
    ∃ final, printLoop args f cursor sink = some final := by
  induction one generalizing f cursor sink with
  | stop stopped =>
    subst head
    cases f with
    | nil => exact ⟨sink, printLoop_nil⟩
    | cons x f =>
      rw [printLoop_cons]
      split
      · next room =>
        obtain ⟨q, made⟩ := exists_printPoint args x f cursor room
        rw [made] at stopped
        cases stopped
      · exact ⟨sink, rfl⟩
  | next made _ ih =>
    obtain ⟨here, later⟩ := List.forall_mem_cons.mp safe
    cases printMove made with
    | step room step =>
      cases head
      rw [printLoop_cons, if_pos room, step]
      exact ih rfl later
    | cut cut => exact absurd cut here.1
    | overrun overruns => exact absurd overruns here.2

theorem inside_of_safe {p : PrintPoint} (one : Trace (printPoint args) p trace) (head : p.Inside format)
    (safe : ∀ q ∈ trace, PrintPoint.Safe args q) : ∀ q ∈ trace, q.Inside format := by
  have kept : ∀ p q, p.Inside format → PrintPoint.Safe args p → printPoint args p = some q → q.Inside format := by
    intro p q inside safe made
    cases printMove made with
    | step _ _ suffix => exact (suffix.trans (List.suffix_cons ..)).trans inside
    | cut cut => exact absurd cut safe.1
    | overrun overruns => exact absurd overruns safe.2
  exact one.invariant kept head safe

theorem safe_of_inside {p : PrintPoint} (one : Trace (printPoint args) p trace)
    (inside : ∀ q ∈ trace, q.Inside format) : ∀ q ∈ trace, PrintPoint.Safe args q := by
  intro q member
  constructor
  · intro cut
    obtain ⟨cursor, sink, made⟩ := printPoint_cut cut
    exact inside _ (one.next_mem member made)
  · intro overruns
    exact inside _ (one.next_mem member (printPoint_overruns overruns))

end Runs

/-- `vsnprintf` stays inside its format exactly if it comes to no directive that is cut short and to no `%f` that is
longer than its buffer. -/
theorem print_inside_iff (args : Arguments) (memory : Memory) (str size : ℕ) (format : CString) (cursor : ℕ) :
    PrintsInside args memory str size format cursor ↔
      ∀ trace, PrintTrace args memory str size format cursor trace →
        ∀ p ∈ trace, ¬ p.CutShort ∧ ¬ p.Overruns args := by
  constructor
  · rintro ⟨trace, one, inside, -⟩ other same
    obtain rfl := one.unique same
    unfold PrintTrace at one
    split at one
    · rw [one]
      exact List.forall_mem_nil _
    · exact safe_of_inside one inside
  · intro safe
    obtain ⟨trace, one⟩ := exists_printTrace args memory str size format cursor
    have safe := safe trace one
    refine ⟨trace, one, ?_⟩
    unfold PrintTrace at one
    split at one
    · next absent =>
      rw [one]
      exact ⟨List.forall_mem_nil _, _, if_pos absent⟩
    · next present =>
      obtain ⟨final, loop⟩ := printLoop_trace one rfl safe
      refine ⟨inside_of_safe one List.suffix_rfl safe, ?_⟩
      rw [vsnprintf, if_neg present, loop]
      exact ⟨_, rfl⟩

/-- A format that ends behind a width: the terminator is stored and passed over. -/
theorem print_behind_terminator :
    ¬ PrintsInside (.ofWords []) (fun _ => 0) 4096 16 (['%', '5'].map chr) 0 := by
  rintro ⟨trace, one, inside, -⟩
  have made : printPoint (.ofWords []) (.head (some (['%', '5'].map chr)) 0 ⟨fun _ => 0, 4096, 16⟩) =
      some (.head none 0 (Sink.offer ⟨fun _ => 0, 4096, 16⟩ 0)) := rfl
  exact inside _ (Trace.next_mem one (Trace.head_mem one) made)

end CLite
