import CLite.Proofs.GlobAllocations

/-! # `GLOB_NOSPACE` with `GLOB_APPEND`

Until the results are collected, `glob` works on vectors of its own, and running out of memory there leaves the
`glob_t` of the caller alone. The array for the results is stored into `gl_pathv` before the pointer is looked
at, so when that last allocation fails the results of earlier calls are lost.
-/

namespace CLite

open Oracle

variable {fs : FileSystem} {succeeds : ℕ → Bool} {pattern : CString} {flags : BitVec 32} {pglob : GlobT}

/-- A call that returns `GLOB_NOSPACE` leaves the count, the array and its strings as they were. -/
def NospaceKeepsResults (fs : FileSystem) (succeeds : ℕ → Bool) (pattern : CString) (flags : BitVec 32)
    (pglob : GlobT) : Prop :=
  ∀ after, glob fs succeeds pattern flags pglob = some (GLOB_NOSPACE, after) →
    after.pathc = pglob.pathc ∧ after.pathv = pglob.pathv

/-- The allocations for the array that is handed to the caller succeed, where one is made: for the strings found,
or for the pattern itself under `GLOB_NOCHECK`. They come after `count` others. -/
def HandedOver (succeeds : ℕ → Bool) (pattern : CString) (flags : BitVec 32) (found : List CString)
    (count : ℕ) : Prop :=
  if found = [] then
    hasFlag flags GLOB_NOCHECK = true → TextFits pattern flags →
      succeeds count = true ∧ succeeds (count + 1) = true
  else succeeds count = true

/-- One of the allocations for collecting the results is refused, or none of those after it is, or there was
nothing to lose. Nothing is asked where the results cannot be collected at all. -/
def FailsEarly (fs : FileSystem) (succeeds : ℕ → Bool) (pattern : CString) (flags : BitVec 32) (pglob : GlobT) :
    Prop :=
  let opts := globOptions pattern flags
  let found := seeds flags pglob ++ matchesOf fs opts pattern
  let count := collectAllocations fs opts pattern (seeds flags pglob)
  Roomy fs opts pattern (seeds flags pglob) → ¬ LiteralOverrun opts pattern →
    (∃ k < count, succeeds k = false) ∨ HandedOver succeeds pattern flags found count ∨
      (pglob.pathv = none ∧ (found = [] ∨ pglob.pathc = 0))

theorem globFinish_keeps_iff (out : GlobVec) (count : ℕ) :
    (∀ after, globFinish succeeds pattern flags pglob out count = some (GLOB_NOSPACE, after) →
      after.pathc = pglob.pathc ∧ after.pathv = pglob.pathv) ↔
    HandedOver succeeds pattern flags out.v count ∨ (pglob.pathv = none ∧ (out.v = [] ∨ pglob.pathc = 0)) := by
  have overrun : bufferSize ≤ (globUnescape (hasFlag flags GLOB_NOESCAPE) pattern).length ↔
      ¬ TextFits pattern flags := by
    rw [TextFits, not_lt]
  simp only [globFinish, HandedOver, overrun]
  split
  next nothing =>
    split
    next nocheck =>
      rcases em (TextFits pattern flags) with fits | long
      · rcases em (succeeds count = false ∨ succeeds (count + 1) = false) with failed | granted
        · have refused : ¬ (succeeds count = true ∧ succeeds (count + 1) = true) := by grind
          simp [fits, failed, refused, nocheck, nothing, @eq_comm _ none]
        · have both : succeeds count = true ∧ succeeds (count + 1) = true := by grind
          simp [fits, both, GLOB_NOSPACE]
      · simp [long]
    next plain => simp [plain, GLOB_NOMATCH, GLOB_NOSPACE]
  next something =>
    cases granted : succeeds count with
    | false => simp [something, @eq_comm _ none, @eq_comm _ 0, and_comm]
    | true => simp [GLOB_NOSPACE]

/-- Where the results cannot be collected, not even enough memory helps. -/
theorem globCollect_stops (fs : FileSystem) (pattern : CString) (flags : BitVec 32) (pglob : GlobT)
    (crowded : ¬ (Roomy fs (globOptions pattern flags) pattern (seeds flags pglob) ∧
      ¬ LiteralOverrun (globOptions pattern flags) pattern)) :
    ∃ stop, (globCollect fs (fun _ => true) pattern flags pglob).run 0 = .error stop := by
  have outcome := globCollect_outcome fs (fun _ => true) pattern flags pglob 0
  cases ran : (globCollect fs (fun _ => true) pattern flags pglob).run 0 with
  | error stop => exact ⟨stop, rfl⟩
  | ok result =>
    rw [ran] at outcome
    exact absurd ⟨outcome.roomy, outcome.fits⟩ crowded

/-- With `GLOB_APPEND`, running out of memory leaves the earlier results in place exactly if it happens while
the results are collected, or there are no earlier results. -/
theorem nospace_keeps_results_iff (append : hasFlag flags GLOB_APPEND = true) :
    NospaceKeepsResults fs succeeds pattern flags pglob ↔ FailsEarly fs succeeds pattern flags pglob := by
  have follows := globCollect_metered fs pattern flags pglob succeeds 0
  rw [NospaceKeepsResults, FailsEarly, glob]
  simp only [append, if_true]
  rcases em (Roomy fs (globOptions pattern flags) pattern (seeds flags pglob) ∧
    ¬ LiteralOverrun (globOptions pattern flags) pattern) with ⟨roomy, fits⟩ | crowded
  · obtain ⟨out, ran, found⟩ := globCollect_run fs roomy fits
    simp only [roomy, fits, not_false_eq_true, true_implies, ← found]
    rw [ran] at follows
    generalize (globCollect fs succeeds pattern flags pglob).run 0 = actual at follows ⊢
    cases follows with
    | granted longer all =>
      have none_refused : ¬ ∃ k < collectAllocations fs (globOptions pattern flags) pattern
          (seeds flags pglob), succeeds k = false := by
        rintro ⟨k, before, failed⟩
        rw [all k (Nat.zero_le k) before] at failed
        cases failed
      simp only [globFinish_keeps_iff, none_refused, false_or]
    | refused longer refusal =>
      simp only [Granted, not_forall, Bool.not_eq_true] at refusal
      obtain ⟨k, -, early, failed⟩ := refusal
      refine iff_of_true ?_ (.inl ⟨k, early, failed⟩)
      intro after returned
      cases returned
      exact ⟨rfl, rfl⟩
  · obtain ⟨stop, ran⟩ := globCollect_stops fs pattern flags pglob crowded
    rw [ran] at follows
    generalize (globCollect fs succeeds pattern flags pglob).run 0 = actual at follows ⊢
    refine iff_of_true ?_ fun roomy fits => absurd ⟨roomy, fits⟩ crowded
    intro after returned
    cases follows with
    | fails error =>
      cases stop with
      | nospace =>
        cases returned
        exact ⟨rfl, rfl⟩
      | overrun => cases returned
    | stops error =>
      cases returned
      exact ⟨rfl, rfl⟩

/-- The copy of the new string is the third of four allocations. -/
theorem nospace_keeps_results_iff_copy :
    NospaceKeepsResults (oneEntry .other) (fun k => k ≠ 2) [chr 'a'] GLOB_APPEND
      ⟨1, some [some [chr 'x'], none], 0⟩ := by
  apply (nospace_keeps_results_iff (by decide)).mpr
  intro roomy fits
  exact .inl ⟨2, by decide, by decide⟩

/-- When only the last of four allocations is refused, the result of the earlier call is lost. -/
theorem nospace_loses_results :
    ¬ NospaceKeepsResults (oneEntry .other) (fun k => k ≠ 3) [chr 'a'] GLOB_APPEND
      ⟨1, some [some [chr 'x'], none], 0⟩ := by
  have returned : glob (oneEntry .other) (fun k => k ≠ 3) [chr 'a'] GLOB_APPEND
      ⟨1, some [some [chr 'x'], none], 0⟩ = some (GLOB_NOSPACE, ⟨0, none, 0⟩) := by decide
  intro keeps
  exact absurd (keeps _ returned).1 (by decide)

end CLite
