import CLite.Proofs.ScanTraces

/-! # Bounds of `vsscanf`

The input cursor always stays in its string. The format cursor moves behind the terminator at a directive that is
cut short and at no other. A count is stored as an `int`, so that it turns negative in the upper half of the address
space.
-/

namespace CLite

open LoopTrace

section Counts

variable {str : CString} {trace : List ScanPoint}

theorem filterMap_count (str : CString) (trace : List ScanPoint) :
    trace.filterMap (ScanPoint.count? str) =
      (trace.filter ScanPoint.storesCount).map fun p => (BitVec.ofNat 32 (p.position str)).toInt := by
  induction trace with
  | nil => rfl
  | cons p trace ih =>
    rw [List.filterMap_cons, List.filter_cons, count?_eq, ih]
    cases p.storesCount <;> rfl

theorem toInt_position (n : ℕ) : (BitVec.ofNat 32 n).toInt = ((n % 2 ^ 32 : ℕ) : ℤ).bmod (2 ^ 32) := by
  rw [BitVec.toInt_eq_toNat_bmod, BitVec.toNat_ofNat]

theorem toInt_position_le {m n : ℕ} (ordered : m ≤ n) (bound : n < 2 ^ 32) :
    (BitVec.ofNat 32 m).toInt ≤ (BitVec.ofNat 32 n).toInt ↔ (m < 2 ^ 31 → n < 2 ^ 31) := by
  rw [toInt_position, toInt_position, Int.bmod, Int.bmod]
  omega

theorem position_le (str : CString) (p : ScanPoint) : p.position str ≤ str.length := Nat.sub_le ..

theorem count_le {count : ℤ} (member : count ∈ trace.filterMap (ScanPoint.count? str)) : count ≤ str.length := by
  rw [filterMap_count] at member
  obtain ⟨p, -, rfl⟩ := List.mem_map.mp member
  have bound := position_le str p
  rw [toInt_position, Int.bmod]
  omega

/-- Positions do not decrease along a trace. -/
theorem positions_le {p : ScanPoint} (one : Trace (scanPoint str) p trace) :
    trace.Pairwise fun p q => p.position str ≤ q.position str := by
  have shorter : trace.Pairwise fun p q => q.state.s.length ≤ p.state.s.length :=
    one.pairwise (fun p q made => (pointStep made).input_suffix.length_le)
      fun _ _ _ first second => second.trans first
  exact shorter.imp fun le => Nat.sub_le_sub_left le _

/-- The counts do not decrease if none of them is the first to turn negative. -/
theorem counts_le_iff {p : ScanPoint} (fits : str.length < 2 ^ 32) (one : Trace (scanPoint str) p trace) :
    (trace.filterMap (ScanPoint.count? str)).Pairwise (· ≤ ·) ↔
      (trace.filter ScanPoint.storesCount).Pairwise fun p q => p.position str < 2 ^ 31 → q.position str < 2 ^ 31 := by
  have ordered := (positions_le one).filter ScanPoint.storesCount
  have bound (q : ScanPoint) : q.position str < 2 ^ 32 := (position_le str q).trans_lt fits
  rw [filterMap_count, List.pairwise_map]
  constructor
  · intro counts
    exact (ordered.and counts).imp fun both => (toInt_position_le both.1 (bound _)).mp both.2
  · intro positions
    exact (ordered.and positions).imp fun both => (toInt_position_le both.1 (bound _)).mpr both.2

end Counts

section Bounds

variable {str format : CString} {trace : List ScanPoint}

theorem inside_of_complete (one : ScanTrace str format trace) (complete : ∀ p ∈ trace, ¬ p.CutShort) :
    ∀ p ∈ trace, p.Inside str format := by
  have kept : ∀ p q, p.Inside str format → ¬ p.CutShort → scanPoint str p = some q → q.Inside str format := by
    rintro p q ⟨input, f, head, suffix⟩ whole made
    obtain ⟨g, next, shorter⟩ := (pointStep made).format_suffix whole head
    exact ⟨(pointStep made).input_suffix.trans input, g, next, shorter.trans suffix⟩
  exact one.invariant kept ⟨List.suffix_rfl, format, rfl, List.suffix_rfl⟩ complete

theorem complete_of_inside (one : ScanTrace str format trace) (inside : ∀ p ∈ trace, p.Inside str format) :
    ∀ p ∈ trace, ¬ p.CutShort := by
  intro p member cut
  have made : ∃ q, scanPoint str p = some q := by
    obtain ⟨f, text, -⟩ := cut
    obtain ⟨format, state, left⟩ := p
    simp only [ScanPoint.directiveText] at text
    split at text
    · split at text
      · next running =>
        obtain rfl := running.1
        exact exists_scanPoint ..
      · cases text
    · cases text
  obtain ⟨q, made⟩ := made
  obtain ⟨-, g, next, -⟩ := inside q (one.next_mem member made)
  rw [(pointStep made).format_none cut] at next
  cases next

end Bounds

/-- `vsscanf` stays inside its strings exactly if it comes to no directive that is cut short and no `%n` is reached
in the upper half of the address space after one in the lower half. -/
theorem scan_inside_iff (str format : CString) (fits : str.length < 2 ^ 32) :
    StaysInside str format ↔ ∀ trace, ScanTrace str format trace → (∀ p ∈ trace, ¬ p.CutShort) ∧
      (trace.filter ScanPoint.storesCount).Pairwise fun p q => p.position str < 2 ^ 31 → q.position str < 2 ^ 31 := by
  constructor
  · rintro ⟨trace, one, inside, counts, -, -⟩ other same
    obtain rfl := one.unique same
    exact ⟨complete_of_inside one inside, (counts_le_iff fits one).mp counts⟩
  · intro holds
    obtain ⟨trace, one⟩ := exists_scanTrace str format
    obtain ⟨complete, counts⟩ := holds trace one
    obtain ⟨last, -, loop⟩ := scanLoop_trace one rfl rfl complete
    refine ⟨trace, one, inside_of_complete one complete, (counts_le_iff fits one).mpr counts, fun _ => count_le, ?_⟩
    exact ⟨_, congrArg (Option.map _) loop⟩

/-- Two numbers with a count behind each of them. -/
theorem scan_inside_iff_counts :
    StaysInside (['7', ' ', '4', '2'].map chr) (['%', 'd', '%', 'n', '%', 'd', '%', 'n'].map chr) := by
  refine (scan_inside_iff _ _ (by decide)).mpr ?_
  intro trace one
  obtain rfl := one.unique (.next rfl (.next rfl (.next rfl (.next rfl (.stop rfl)))))
  refine ⟨?_, by decide⟩
  simp only [List.forall_mem_cons]
  refine ⟨mt cutShort_iff.mp (by decide), mt cutShort_iff.mp (by decide), mt cutShort_iff.mp (by decide),
    mt cutShort_iff.mp (by decide), ?_, nofun⟩
  rintro ⟨f, ⟨⟩, -⟩

/-- A format that ends behind a width: the cursor moves behind the terminator, and the loop would go on there. -/
theorem scan_behind_terminator :
    vsscanf (['7'].map chr) (['%', '5'].map chr) = none ∧ ¬ StaysInside (['7'].map chr) (['%', '5'].map chr) := by
  have made : scanPoint (['7'].map chr) (scanStart (['7'].map chr) (['%', '5'].map chr)) =
      some ⟨none, ⟨['7'].map chr, 0, []⟩, false⟩ := rfl
  constructor
  · exact congrArg (Option.map _) (scanLoop_undefined rfl)
  · rintro ⟨trace, one, inside, -⟩
    obtain ⟨-, f, behind, -⟩ := inside _ (one.next_mem one.head_mem made)
    cases behind

end CLite
