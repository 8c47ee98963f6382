import CLite.Proofs.ScanTraces

/-! # The result of `vsscanf`

Each conversion that finds what it asks for is counted, whether its store is suppressed or not. The result is
therefore the number of assignments and of suppressed matches together.
-/

namespace CLite

open LoopTrace
open scoped Classical

section Rounds

variable {str f g rest : CString} {x : CChar} {d : ScanDirective} {state next : Scanning} {slots : List Slot}

theorem ScanFormat.dropWhile (format : ScanFormat f slots) : ScanFormat (f.dropWhile isSpace) slots := by
  have percent : isSpace (chr '%') = false := by decide
  induction format with
  | nil => exact .nil
  | blank space _ ih => rwa [List.dropWhile_cons_of_pos space]
  | literal plain ordinary format =>
    rw [List.dropWhile_cons_of_neg (by simp [plain])]
    exact .literal plain ordinary format
  | percent format =>
    rw [List.dropWhile_cons_of_neg (by simp [percent])]
    exact .percent format
  | directive opened read format =>
    rw [List.dropWhile_cons_of_neg (by simp [percent])]
    exact .directive opened read format

theorem ScanFormat.tail (ordinary : x ≠ chr '%') (format : ScanFormat (x :: f) slots) : ScanFormat f slots := by
  cases format with
  | blank _ format => exact format
  | literal _ _ format => exact format
  | percent | directive => exact absurd rfl ordinary

theorem ScanFormat.behind_percent (format : ScanFormat (chr '%' :: chr '%' :: f) slots) : ScanFormat f slots := by
  cases format with
  | percent format => exact format
  | directive opened => exact absurd rfl opened
  | blank space => exact absurd space (by decide)
  | literal _ ordinary => exact absurd rfl ordinary

/-- The directives of a completed format are completed. -/
theorem ScanFormat.behind_directive (opened : f.head? ≠ some (chr '%')) (format : ScanFormat (chr '%' :: f) slots) :
    ∃ d rest later, readDirective f = some (d, rest) ∧ slots = d.slots ++ later ∧ ScanFormat rest later := by
  cases format with
  | directive _ read format => exact ⟨_, _, _, read, rfl, format⟩
  | percent => exact absurd rfl opened
  | blank space => exact absurd space (by decide)
  | literal _ ordinary => exact absurd rfl ordinary

theorem ScanFormat.not_cut (format : ScanFormat (chr '%' :: f) slots) : readDirective f ≠ none := by
  intro cut
  obtain ⟨d, rest, later, read, -⟩ := format.behind_directive (opened_of_cut cut)
  rw [read] at cut
  cases cut

theorem not_matches_count (own : d.slot = some .count) (s : CString) : ¬ d.Matches s := by
  simp [ScanDirective.Matches, own]

theorem not_matches_unknown (unknown : d.slot = none) (s : CString) : ¬ d.Matches s := by
  simp [ScanDirective.Matches, unknown]

/-- What a state gains by stores through some pointers, with a number of matches that are counted on top. -/
structure Assigned (state next : Scanning) (taken : List Slot) (suppressed : ℕ) (stores : List Store) : Prop where
  holds : List.Forall₂ Slot.Holds taken stores
  stores : next.stores = state.stores ++ stores
  matched : next.matched = state.matched + (taken.filter (· ≠ .count)).length + suppressed

theorem Assigned.refl (state : Scanning) (s : CString) : Assigned state { state with s := s } [] 0 [] :=
  ⟨.nil, by simp, by simp⟩

theorem Assigned.trans {final : Scanning} {taken later : List Slot} {m n : ℕ} {stores others : List Store}
    (first : Assigned state next taken m stores) (second : Assigned next final later n others) :
    Assigned state final (taken ++ later) (m + n) (stores ++ others) where
  holds := List.rel_append first.holds second.holds
  stores := by rw [second.stores, first.stores, List.append_assoc]
  matched := by
    rw [second.matched, first.matched, List.filter_append, List.length_append]
    omega

/-- One if the directive is suppressed and matches. -/
noncomputable def ScanDirective.suppressed (d : ScanDirective) (s : CString) : ℕ :=
  if d.suppress = true ∧ d.Matches s then 1 else 0

/-- A directive stores through its own pointers, and is counted as well if it is suppressed and matches. -/
theorem DirectiveRound.assigned (acts : DirectiveRound str d rest state (.next g next)) :
    g = rest ∧ ∃ stores, Assigned state next d.slots (d.suppressed state.s) stores := by
  cases acts with
  | counted own =>
    have uncounted : d.suppressed state.s = 0 := if_neg fun both => not_matches_count own _ both.2
    rw [uncounted]
    cases suppress : d.suppress with
    | true =>
      have slots : d.slots = [] := by simp [ScanDirective.slots, suppress]
      rw [slots]
      exact ⟨rfl, [], .refl state _⟩
    | false =>
      have slots : d.slots = [.count] := by simp [ScanDirective.slots, suppress, own]
      have holds (value : BitVec 32) : Slot.Holds .count (.int value) := trivial
      rw [slots]
      exact ⟨rfl, _, .cons (holds _) .nil, rfl, rfl⟩
  | @matched slot store s own found holds =>
    cases suppress : d.suppress with
    | true =>
      have slots : d.slots = [] := by simp [ScanDirective.slots, suppress]
      have counted : d.suppressed state.s = 1 := if_pos ⟨suppress, found⟩
      rw [slots, counted]
      exact ⟨rfl, [], .nil, by simp, rfl⟩
    | false =>
      have slots : d.slots = [slot] := by simp [ScanDirective.slots, suppress, own]
      have uncounted : d.suppressed state.s = 0 := if_neg (by simp [suppress])
      have other : slot ≠ .count := by
        rintro rfl
        exact not_matches_count own _ found
      rw [slots, uncounted]
      exact ⟨rfl, [store], .cons holds .nil, rfl, by simp [other]⟩
  | passed unknown =>
    have slots : d.slots = [] := by simp [ScanDirective.slots, unknown]
    have uncounted : d.suppressed state.s = 0 := if_neg fun both => not_matches_unknown unknown _ both.2
    rw [slots, uncounted]
    exact ⟨rfl, [], .refl state _⟩

/-- One if a suppressed directive matches at a point. -/
noncomputable def ScanPoint.suppressed (p : ScanPoint) : ℕ := if p.SuppressedMatch then 1 else 0

theorem suppressed_directive (opened : f.head? ≠ some (chr '%')) (read : readDirective f = some (d, rest)) :
    ScanPoint.suppressed ⟨some (chr '%' :: f), state, false⟩ = d.suppressed state.s := by
  have found : ScanPoint.directive ⟨some (chr '%' :: f), state, false⟩ = some d := by
    simp [ScanPoint.directive, ScanPoint.directiveText, opened, read]
  simp [ScanPoint.suppressed, ScanDirective.suppressed, ScanPoint.SuppressedMatch, found]

theorem suppressed_other (other : x = chr '%' → f.head? = some (chr '%')) :
    ScanPoint.suppressed ⟨some (x :: f), state, false⟩ = 0 := by
  refine if_neg ?_
  rintro ⟨d, found, -⟩
  obtain ⟨f', rest, state', same, opened, -⟩ := directive_eq_some found
  cases same
  exact opened (other rfl)

/-- A round of a completed format stores through the first of the pointers. -/
theorem next_assigned (format : ScanFormat (x :: f) slots) (round : scanRound str x f state = .next g next) :
    ∃ own later stores, slots = own ++ later ∧ ScanFormat g later ∧
      Assigned state next own (ScanPoint.suppressed ⟨some (x :: f), state, false⟩) stores := by
  have acts := roundAt str x f state
  rw [round] at acts
  generalize same : ScanRound.next g next = round at acts
  cases acts with
  | blank space =>
    cases same
    have ordinary : x ≠ chr '%' := by
      rintro rfl
      exact absurd space (by decide)
    rw [suppressed_other fun percent => absurd percent ordinary]
    exact ⟨[], slots, [], rfl, (format.tail ordinary).dropWhile, .refl state _⟩
  | literal _ ordinary =>
    cases same
    rw [suppressed_other fun percent => absurd percent ordinary]
    exact ⟨[], slots, [], rfl, format.tail ordinary, .refl state _⟩
  | percent =>
    cases same
    rw [suppressed_other fun _ => rfl]
    exact ⟨[], slots, [], rfl, format.behind_percent, .refl state _⟩
  | directive opened read acts =>
    subst same
    obtain ⟨d, rest, later, read', rfl, format⟩ := format.behind_directive opened
    obtain ⟨rfl, rfl⟩ := Prod.mk.inj (Option.some.inj (read.symm.trans read'))
    obtain ⟨rfl, stores, assigned⟩ := acts.assigned
    rw [suppressed_directive opened read]
    exact ⟨_, later, stores, rfl, format, assigned⟩
  | cut => split at same <;> cases same
  | mismatch | percentMismatch => cases same

/-- A round that ends the loop stores nothing. -/
theorem leave_assigned (format : ScanFormat (x :: f) slots) (round : scanRound str x f state = .leave next) :
    Assigned state next [] (ScanPoint.suppressed ⟨some (x :: f), state, false⟩) [] := by
  have acts := roundAt str x f state
  rw [round] at acts
  generalize same : ScanRound.leave next = round at acts
  cases acts with
  | mismatch _ ordinary =>
    cases same
    rw [suppressed_other fun percent => absurd percent ordinary]
    exact .refl state _
  | percentMismatch =>
    cases same
    rw [suppressed_other fun _ => rfl]
    exact .refl state _
  | directive opened read acts =>
    cases acts with
    | refused missing =>
      cases same
      have uncounted : ScanDirective.suppressed _ state.s = 0 := if_neg fun both => missing both.2
      rw [suppressed_directive opened read, uncounted]
      exact .refl state _
    | counted | matched | passed => cases same
  | cut cut => exact absurd cut format.not_cut
  | blank | literal | percent => cases same

end Rounds

section Runs

variable {str f format : CString} {slots : List Slot} {p : ScanPoint} {trace : List ScanPoint}

theorem suppressed_stopped (stopped : scanPoint str p = none) : p.suppressed = 0 := by
  refine if_neg ?_
  rintro ⟨d, found, -⟩
  obtain ⟨f, rest, state, rfl, -⟩ := directive_eq_some found
  exact scanPoint_ne_none stopped

/-- A run over a completed format stores through the first pointers, and its result counts the suppressed matches
of its trace as well. -/
theorem trace_assigned (one : Trace (scanPoint str) p trace) (head : p.format = some f) (running : p.left = false)
    (format : ScanFormat f slots) :
    ∃ final taken stores, scanLoop str f p.state = some final ∧ taken <+: slots ∧
      Assigned p.state final taken (trace.map ScanPoint.suppressed).sum stores := by
  induction one generalizing f slots with
  | @stop p stopped =>
    obtain ⟨format', state, left⟩ := p
    obtain rfl : format' = some f := head
    obtain rfl : left = false := running
    rw [List.map_singleton, List.sum_singleton, suppressed_stopped stopped]
    cases f with
    | nil => exact ⟨state, [], [], scanLoop_nil str state, List.nil_prefix, .refl state _⟩
    | cons x f => exact absurd stopped scanPoint_ne_none
  | next made later ih =>
    rw [List.map_cons, List.sum_cons]
    cases pointStep made with
    | next round =>
      cases head
      obtain ⟨own, rest, stores, rfl, format', first⟩ := next_assigned format round
      obtain ⟨final, taken, others, loop, within, second⟩ := ih rfl rfl format'
      exact ⟨final, own ++ taken, stores ++ others, (scanLoop_next round).trans loop,
        (List.prefix_append_right_inj own).mpr within, first.trans second⟩
    | leave round =>
      cases head
      obtain rfl := later.stopped (scanPoint_left ..)
      rw [List.map_singleton, List.sum_singleton, suppressed_stopped (scanPoint_left str ..), Nat.add_zero]
      exact ⟨_, [], [], scanLoop_leave round, List.nil_prefix, leave_assigned format round⟩
    | undefined round =>
      cases head
      obtain ⟨rfl, cut⟩ := cutShort_iff.mp (cut_of_undefined round)
      exact absurd cut format.not_cut

theorem suppressed_sum_eq_zero (trace : List ScanPoint) :
    (trace.map ScanPoint.suppressed).sum = 0 ↔ ∀ p ∈ trace, ¬ p.SuppressedMatch := by
  rw [List.sum_eq_zero_iff_forall_eq_nat, List.forall_mem_map]
  refine forall₂_congr fun p _ => ?_
  simp [ScanPoint.suppressed]

end Runs

/-- For a completed format the result is the number of assignments exactly if no suppressed directive matches. -/
theorem scan_counts_iff (str : CString) {format : CString} {slots : List Slot} (completed : ScanFormat format slots) :
    CountsAssignments str format slots ↔
      ∀ trace, ScanTrace str format trace → ∀ p ∈ trace, ¬ p.SuppressedMatch := by
  constructor
  · rintro ⟨k, stores, taken, run, within, holds, result, -⟩ trace one
    obtain ⟨final, taken', stores', loop, within', assigned⟩ := trace_assigned one rfl rfl completed
    have outcome : vsscanf str format = some (final.matched, final.stores) := congrArg (Option.map _) loop
    obtain ⟨rfl, rfl⟩ := Prod.mk.inj (Option.some.inj (run.symm.trans outcome))
    -- the stores determine how many pointers are taken
    obtain rfl : stores' = final.stores := assigned.stores.symm
    have same : taken = taken' :=
      (List.prefix_of_prefix_length_le within within'
        (holds.length_eq.trans assigned.holds.length_eq.symm).le).eq_of_length
        (holds.length_eq.trans assigned.holds.length_eq.symm)
    have none : (trace.map ScanPoint.suppressed).sum = 0 := by
      have matched := assigned.matched
      rw [result, same] at matched
      change _ = 0 + _ + _ at matched
      omega
    exact (suppressed_sum_eq_zero trace).mp none
  · intro unsuppressed
    obtain ⟨trace, one⟩ := exists_scanTrace str format
    obtain ⟨final, taken, stores, loop, within, assigned⟩ := trace_assigned one rfl rfl completed
    have outcome : vsscanf str format = some (final.matched, final.stores) := congrArg (Option.map _) loop
    have matched := assigned.matched
    rw [(suppressed_sum_eq_zero trace).mpr (unsuppressed trace one)] at matched
    have result : final.matched = (taken.filter (· ≠ .count)).length := by
      rw [matched]
      exact Nat.zero_add _
    obtain rfl : stores = final.stores := assigned.stores.symm
    refine ⟨_, _, taken, outcome, within, assigned.holds, result, ?_⟩
    rw [result]
    exact List.prefix_iff_eq_take.mp (within.filter _)

/-- A number that is assigned. -/
theorem scan_counts_iff_assigned : CountsAssignments (['7'].map chr) (['%', 'd'].map chr) [.integer .none] := by
  have read : readDirective (['d'].map chr) = some (⟨false, [], .none, chr 'd'⟩, []) := rfl
  have completed : ScanFormat (['%', 'd'].map chr) [.integer .none] := ScanFormat.directive (by decide) read .nil
  refine (scan_counts_iff _ completed).mpr ?_
  intro trace one
  cases one with
  | stop stopped => cases stopped
  | next made later =>
    cases made
    cases later with
    | next made => cases made
    | stop =>
      refine List.forall_mem_cons.mpr ⟨?_, List.forall_mem_singleton.mpr ?_⟩
      · rintro ⟨d, ⟨⟩, suppressed, -⟩
        exact absurd suppressed (by decide)
      · rintro ⟨d, ⟨⟩, -⟩

/-- A suppressed number is counted although nothing is stored. -/
theorem suppressed_counted :
    ScanFormat (['%', '*', 'd'].map chr) [] ∧ vsscanf (['7'].map chr) (['%', '*', 'd'].map chr) = some (1, []) ∧
      ¬ CountsAssignments (['7'].map chr) (['%', '*', 'd'].map chr) [] := by
  have run : vsscanf (['7'].map chr) (['%', '*', 'd'].map chr) = some (1, []) := by
    have loop : scanLoop (['7'].map chr) (['%', '*', 'd'].map chr) ⟨['7'].map chr, 0, []⟩ = some ⟨[], 1, []⟩ :=
      (scanLoop_next rfl).trans (scanLoop_nil ..)
    exact congrArg (Option.map _) loop
  have read : readDirective (['*', 'd'].map chr) = some (⟨true, [], .none, chr 'd'⟩, []) := rfl
  refine ⟨ScanFormat.directive (by decide) read .nil, run, ?_⟩
  rintro ⟨k, stores, taken, run', within, -, result, -⟩
  obtain ⟨rfl, -⟩ := Prod.mk.inj (Option.some.inj (run.symm.trans run'))
  obtain rfl := List.prefix_nil.mp within
  cases result

end CLite
