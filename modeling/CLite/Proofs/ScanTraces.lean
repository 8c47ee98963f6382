import CLite.Proofs.ScanRounds
import CLite.Spec.ScanTraces

/-! # Points of `vsscanf`

A round moves the format cursor to where the next round starts, and behind the terminator exactly if the directive
is cut short. The input cursor never moves back or out of the string.
-/

namespace CLite

open LoopTrace

section Format

variable {str f rest s : CString} {x : CChar} {d : ScanDirective} {state next : Scanning}

theorem readLength_suffix (f : CString) : (readLength f).2 <:+ f := by
  cases f with
  | nil => exact List.suffix_rfl
  | cons x rest =>
    have tail : rest.tail <:+ x :: rest := (List.tail_suffix _).trans (List.suffix_cons ..)
    rw [readLength]
    split_ifs
    · exact tail
    · exact List.suffix_cons ..
    · exact tail
    · exact List.suffix_cons ..
    · exact List.suffix_rfl

theorem readOptions_suffix {width : CString} {suppress : Bool} {length : ScanLength}
    (read : readOptions f = (suppress, width, length, rest)) : rest <:+ f := by
  obtain rfl : (readLength ((if decide (f.head? = some (chr '*')) = true then f.tail else f).dropWhile isDecimal)).2 =
      rest := congrArg (fun options => options.2.2.2) read
  refine (readLength_suffix _).trans ((List.dropWhile_suffix _).trans ?_)
  split
  · exact List.tail_suffix _
  · exact List.suffix_rfl

theorem readDirective_suffix (read : readDirective f = some (d, rest)) : rest <:+ f := by
  unfold readDirective at read
  split at read
  · cases read
  · next options =>
    cases read
    exact (List.suffix_cons ..).trans (readOptions_suffix options)

theorem roundEnd_options {width : CString} {suppress : Bool} {length : ScanLength}
    (opened : f.head? ≠ some (chr '%')) (read : readOptions f = (suppress, width, length, rest)) :
    roundEnd (chr '%') f s = advance rest := by
  have percent : isSpace (chr '%') = false := by decide
  have ended (f : CString) : (scanLength (numberLoop 0 f).2).2 = (readLength (f.dropWhile isDecimal)).2 := by
    rw [numberLoop_takeWhile, scanLength_eq]
  rw [roundEnd, if_neg (by simp [percent]), if_neg (by simp), if_neg opened]
  simp only [ended]
  split
  next star =>
    rw [readOptions, star] at read
    simp only [decide_true, if_true, Prod.mk.injEq] at read
    rw [read.2.2.2]
  next noStar =>
    rw [readOptions] at read
    simp only [noStar, decide_false, Bool.false_eq_true, if_false, Prod.mk.injEq] at read
    rw [read.2.2.2]

/-- A directive ends behind its conversion character. -/
theorem roundEnd_directive (opened : f.head? ≠ some (chr '%')) (read : readDirective f = some (d, rest)) :
    roundEnd (chr '%') f s = some rest := by
  unfold readDirective at read
  split at read
  · cases read
  · next options =>
    cases read
    exact roundEnd_options opened options

/-- A directive that is cut short ends behind the terminator. -/
theorem roundEnd_cut (cut : readDirective f = none) : roundEnd (chr '%') f s = none := by
  have opened := opened_of_cut cut
  unfold readDirective at cut
  split at cut
  · next options => exact roundEnd_options opened options
  · cases cut

end Format

section Rounds

variable {str f g : CString} {x : CChar} {state next : Scanning}

theorem cutShort_iff : ScanPoint.CutShort ⟨some (x :: f), state, false⟩ ↔ x = chr '%' ∧ readDirective f = none := by
  constructor
  · rintro ⟨f', text, cut⟩
    simp only [ScanPoint.directiveText] at text
    split at text
    · next found =>
      cases text
      exact ⟨found.2.1, cut⟩
    · cases text
  · rintro ⟨percent, cut⟩
    exact ⟨f, if_pos ⟨rfl, percent, opened_of_cut cut⟩, cut⟩

/-- A round after which the loop goes on. -/
structure GoesOn (x : CChar) (f g : CString) (state next : Scanning) : Prop where
  ended : roundEnd x f state.s = some g
  format : g <:+ f
  input : next.s <:+ state.s
  complete : ¬ ScanPoint.CutShort ⟨some (x :: f), state, false⟩

theorem goesOn_directive {d : ScanDirective} {rest : CString} (opened : f.head? ≠ some (chr '%'))
    (read : readDirective f = some (d, rest)) (acts : DirectiveRound str d rest state (.next g next)) :
    GoesOn (chr '%') f g state next := by
  have ended := roundEnd_directive (s := state.s) opened read
  have suffix := readDirective_suffix read
  have complete : ¬ ScanPoint.CutShort ⟨some (chr '%' :: f), state, false⟩ := by
    rw [cutShort_iff, read]
    rintro ⟨-, ⟨⟩⟩
  cases acts with
  | counted => exact ⟨ended, suffix, List.suffix_rfl, complete⟩
  | matched _ _ _ within => exact ⟨ended, suffix, within, complete⟩
  | passed => exact ⟨ended, suffix, List.dropWhile_suffix _, complete⟩

theorem goesOn (round : scanRound str x f state = .next g next) : GoesOn x f g state next := by
  have acts := roundAt str x f state
  rw [round] at acts
  generalize same : ScanRound.next g next = round at acts
  cases acts with
  | blank space =>
    cases same
    refine ⟨if_pos space, List.dropWhile_suffix _, List.dropWhile_suffix _, mt cutShort_iff.mp ?_⟩
    rintro ⟨rfl, -⟩
    exact absurd space (by decide)
  | literal plain ordinary same' =>
    cases same
    refine ⟨?_, List.suffix_rfl, List.tail_suffix _, fun cut => ordinary (cutShort_iff.mp cut).1⟩
    rw [roundEnd, if_neg (by simp [plain]), if_pos ordinary, if_pos same']
  | percent same' =>
    cases same
    refine ⟨?_, List.suffix_cons .., List.tail_suffix _, fun cut => opened_of_cut (cutShort_iff.mp cut).2 rfl⟩
    rw [roundEnd, if_neg (by decide), if_neg (by simp), if_pos List.head?_cons, if_pos same']
    rfl
  | directive opened read acts =>
    cases same
    exact goesOn_directive opened read acts
  | cut => split at same <;> cases same
  | mismatch | percentMismatch => cases same

/-- A round after which the loop is left. The format cursor is behind the terminator if the directive is cut
short. -/
structure Leaves (x : CChar) (f : CString) (state next : Scanning) : Prop where
  input : next.s <:+ state.s
  format : ¬ ScanPoint.CutShort ⟨some (x :: f), state, false⟩ → ∃ g, roundEnd x f state.s = some g ∧ g <:+ x :: f

theorem leaves (round : scanRound str x f state = .leave next) : Leaves x f state next := by
  have acts := roundAt str x f state
  rw [round] at acts
  generalize same : ScanRound.leave next = round at acts
  cases acts with
  | mismatch plain ordinary differs =>
    cases same
    refine ⟨List.suffix_rfl, fun _ => ⟨x :: f, ?_, List.suffix_rfl⟩⟩
    rw [roundEnd, if_neg (by simp [plain]), if_pos ordinary, if_neg differs]
  | @percentMismatch f differs =>
    cases same
    refine ⟨List.suffix_rfl, fun _ => ⟨chr '%' :: f, ?_, List.suffix_cons ..⟩⟩
    rw [roundEnd, if_neg (by decide), if_neg (by simp), if_pos List.head?_cons, if_neg differs]
  | directive opened read acts =>
    cases acts with
    | refused _ within =>
      cases same
      exact ⟨within, fun _ => ⟨_, roundEnd_directive opened read,
        (readDirective_suffix read).trans (List.suffix_cons ..)⟩⟩
    | counted | matched | passed => cases same
  | cut cut =>
    split at same
    · cases same
      exact ⟨List.dropWhile_suffix _, fun complete => absurd (cutShort_iff.mpr ⟨rfl, cut⟩) complete⟩
    · cases same
  | blank | literal | percent => cases same

/-- Only a directive that is cut short makes the loop read on behind the terminator. -/
theorem cut_of_undefined (round : scanRound str x f state = .undefined) :
    ScanPoint.CutShort ⟨some (x :: f), state, false⟩ := by
  have acts := roundAt str x f state
  rw [round] at acts
  generalize same : ScanRound.undefined = round at acts
  cases acts with
  | directive opened read acts =>
    subst same
    cases acts
  | cut cut => exact cutShort_iff.mpr ⟨rfl, cut⟩
  | blank | literal | mismatch | percent | percentMismatch => cases same

end Rounds

section Points

variable {str f format : CString} {p q : ScanPoint} {trace : List ScanPoint}

/-- What a step makes of a point, by what the round does. -/
inductive PointStep (str : CString) : ScanPoint → ScanPoint → Prop where
  | next {x : CChar} {f g : CString} {state next : Scanning} (round : scanRound str x f state = .next g next) :
      PointStep str ⟨some (x :: f), state, false⟩ ⟨some g, next, false⟩
  | leave {x : CChar} {f : CString} {state next : Scanning} (round : scanRound str x f state = .leave next) :
      PointStep str ⟨some (x :: f), state, false⟩ ⟨roundEnd x f state.s, next, true⟩
  | undefined {x : CChar} {f : CString} {state : Scanning} (round : scanRound str x f state = .undefined) :
      PointStep str ⟨some (x :: f), state, false⟩
        ⟨roundEnd x f state.s, { state with s := state.s.dropWhile isSpace }, false⟩

theorem pointStep (made : scanPoint str p = some q) : PointStep str p q := by
  obtain ⟨format, state, left⟩ := p
  match format, left with
  | none, _ => cases made
  | some [], _ => cases made
  | some (x :: f), true => cases made
  | some (x :: f), false =>
    simp only [scanPoint, Bool.false_eq_true, if_false] at made
    split at made
    · next round =>
      cases made
      exact .leave round
    · next round =>
      cases made
      rw [(goesOn round).ended]
      exact .next round
    · next round =>
      cases made
      exact .undefined round

/-- The loop makes a round as long as it is running and the format has not ended. -/
theorem exists_scanPoint (str : CString) (x : CChar) (f : CString) (state : Scanning) :
    ∃ q, scanPoint str ⟨some (x :: f), state, false⟩ = some q := by
  simp only [scanPoint, Bool.false_eq_true, if_false]
  split <;> exact ⟨_, rfl⟩

theorem scanPoint_ne_none {x : CChar} {f : CString} {state : Scanning} :
    scanPoint str ⟨some (x :: f), state, false⟩ ≠ none := by
  obtain ⟨q, made⟩ := exists_scanPoint str x f state
  rw [made]
  exact Option.some_ne_none q

theorem scanPoint_left (str : CString) (format : Cursor) (state : Scanning) :
    scanPoint str ⟨format, state, true⟩ = none := by
  match format with
  | none | some [] | some (x :: f) => rfl

theorem PointStep.input_suffix (made : PointStep str p q) : q.state.s <:+ p.state.s := by
  cases made with
  | next round => exact (goesOn round).input
  | leave round => exact (leaves round).input
  | undefined => exact List.dropWhile_suffix _

/-- Unless the directive is cut short, the format cursor stays in its string. -/
theorem PointStep.format_suffix (made : PointStep str p q) (complete : ¬ p.CutShort) (head : p.format = some f) :
    ∃ g, q.format = some g ∧ g <:+ f := by
  cases made with
  | next round =>
    cases head
    exact ⟨_, rfl, (goesOn round).format.trans (List.suffix_cons ..)⟩
  | leave round =>
    cases head
    exact (leaves round).format complete
  | undefined round => exact absurd (cut_of_undefined round) complete

theorem PointStep.format_none (made : PointStep str p q) (cut : p.CutShort) : q.format = none := by
  cases made with
  | next round => exact absurd cut (goesOn round).complete
  | leave | undefined =>
    obtain ⟨rfl, unread⟩ := cutShort_iff.mp cut
    exact roundEnd_cut unread

/-- What is left of the format while the loop is running. -/
def roundsLeft (p : ScanPoint) : ℕ := if p.left then 0 else p.format.elim 0 fun f => f.length + 1

theorem PointStep.roundsLeft_lt (made : PointStep str p q) : roundsLeft q < roundsLeft p := by
  cases made with
  | next round =>
    have shorter := (goesOn round).format.length_le
    simp only [roundsLeft, Bool.false_eq_true, if_false, Option.elim_some, List.length_cons]
    omega
  | leave => simp [roundsLeft]
  | undefined round =>
    obtain ⟨rfl, cut⟩ := cutShort_iff.mp (cut_of_undefined round)
    simp [roundsLeft, roundEnd_cut cut]

/-- The loop stops. -/
theorem exists_scanTrace (str format : CString) : ∃ trace, ScanTrace str format trace :=
  exists_trace roundsLeft (fun _ _ made => (pointStep made).roundsLeft_lt) _

/-- If no directive is cut short, the loop comes to the last point of its trace. -/
theorem scanLoop_trace (one : Trace (scanPoint str) p trace) (head : p.format = some f) (running : p.left = false)
    (complete : ∀ q ∈ trace, ¬ q.CutShort) : ∃ last ∈ trace, scanLoop str f p.state = some last.state := by
  induction one generalizing f with
  | @stop p stopped =>
    obtain ⟨format, state, left⟩ := p
    obtain rfl : format = some f := head
    obtain rfl : left = false := running
    cases f with
    | nil => exact ⟨_, List.mem_singleton_self _, scanLoop_nil str state⟩
    | cons x f => exact absurd stopped scanPoint_ne_none
  | next made later ih =>
    obtain ⟨here, completeLater⟩ := List.forall_mem_cons.mp complete
    cases pointStep made with
    | next round =>
      cases head
      obtain ⟨last, member, loop⟩ := ih rfl rfl completeLater
      exact ⟨last, List.mem_cons_of_mem _ member, (scanLoop_next round).trans loop⟩
    | leave round =>
      cases head
      exact ⟨_, List.mem_cons_of_mem _ later.head_mem, scanLoop_leave round⟩
    | undefined round => exact absurd (cut_of_undefined round) here

end Points

section Directives

variable {str : CString} {p : ScanPoint} {d : ScanDirective}

theorem directive_eq_some (found : p.directive = some d) :
    ∃ f rest state, p = ⟨some (chr '%' :: f), state, false⟩ ∧ f.head? ≠ some (chr '%') ∧
      readDirective f = some (d, rest) := by
  obtain ⟨⟨_, rest⟩, bound, rfl⟩ := Option.map_eq_some_iff.mp found
  obtain ⟨f, text, read⟩ := Option.bind_eq_some_iff.mp bound
  obtain ⟨format, state, left⟩ := p
  simp only [ScanPoint.directiveText] at text
  split at text
  · split at text
    · next found =>
      cases text
      obtain ⟨rfl, rfl, opened⟩ := found
      exact ⟨f, rest, state, rfl, opened, read⟩
    · cases text
  · cases text

theorem slot_count (own : d.slot = some .count) : d.conversion = chr 'n' := by
  unfold ScanDirective.slot at own
  split_ifs at own with count
  · exact count
  · cases own
  · cases own
  · simp at own

theorem storesCount_iff :
    p.storesCount = true ↔ ∃ d, p.directive = some d ∧ d.slot = some .count ∧ d.suppress = false := by
  simp [ScanPoint.storesCount, Option.any_eq_true]

/-- A `%n` stores the number of characters before the input cursor. -/
theorem count?_eq (str : CString) (p : ScanPoint) :
    p.count? str = if p.storesCount then some (BitVec.ofNat 32 (p.position str)).toInt else none := by
  rw [ScanPoint.count?]
  split
  · next stores =>
    obtain ⟨d, found, own, suppress⟩ := storesCount_iff.mp stores
    obtain ⟨f, rest, state, rfl, opened, read⟩ := directive_eq_some found
    have round := scanRound_directive opened read str state
    rw [Scanning.conversion, if_pos (by rw [slot_count own]), suppress] at round
    simp [scanPoint, round, ScanPoint.position]
  · rfl

end Directives

end CLite
