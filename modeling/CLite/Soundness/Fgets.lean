import Mathlib.Data.List.TakeWhile
import CLite.Model.StreamCalls
import CLite.Soundness.Streams

/-! # `fgets` cuts a stream into lines

Each call takes the rest of a line or as much of it as there is room for, so the strings of successive calls are
the pieces of the stream in order. The run ends with a null pointer only when nothing is left.
-/

namespace CLite

open ByteMemory

section TakeLine

variable {room : ℕ} {stream : List Byte}

theorem takeLine_prefix (room : ℕ) (stream : List Byte) : takeLine room stream <+: stream := by
  fun_induction takeLine room stream with
  | case1 => exact List.nil_prefix
  | case2 => exact List.nil_prefix
  | case3 room rest => exact List.cons_prefix_cons.mpr ⟨rfl, List.nil_prefix⟩
  | case4 room x rest _ ih => exact List.cons_prefix_cons.mpr ⟨rfl, ih⟩

theorem takeLine_length_le (room : ℕ) (stream : List Byte) : (takeLine room stream).length ≤ room := by
  fun_induction takeLine room stream with
  | case1 => exact Nat.le_refl 0
  | case2 => exact Nat.zero_le _
  | case3 => exact Nat.succ_le_succ (Nat.zero_le _)
  | case4 room x rest _ ih => exact Nat.succ_le_succ ih

theorem takeLine_ne_nil (positive : 0 < room) (nonempty : stream ≠ []) : takeLine room stream ≠ [] := by
  fun_cases takeLine room stream with
  | case1 => exact absurd positive (Nat.lt_irrefl 0)
  | case2 => exact nonempty
  | case3 => exact List.cons_ne_nil _ _
  | case4 => exact List.cons_ne_nil _ _

/-- The end of the line is the last byte or none. -/
theorem takeLine_newline (room : ℕ) (stream : List Byte) : 10 ∉ (takeLine room stream).dropLast := by
  fun_induction takeLine room stream with
  | case1 => exact List.not_mem_nil
  | case2 => exact List.not_mem_nil
  | case3 => exact List.not_mem_nil
  | case4 room x rest other ih =>
    cases line : takeLine room rest with
    | nil => exact List.not_mem_nil
    | cons y more =>
      rw [line] at ih
      rw [List.dropLast_cons_cons, List.mem_cons]
      rintro (same | later)
      · exact other same.symm
      · exact ih later

/-- Less than there is room for is the rest of the line or the rest of the stream. -/
theorem takeLine_short (short : (takeLine room stream).length < room) :
    (takeLine room stream).getLast? = some 10 ∨ takeLine room stream = stream := by
  fun_induction takeLine room stream with
  | case1 => exact absurd short (Nat.lt_irrefl 0)
  | case2 => exact .inr rfl
  | case3 => exact .inl rfl
  | case4 room x rest _ ih =>
    rcases ih (Nat.lt_of_succ_lt_succ short) with ended | all
    · refine .inl ?_
      rw [List.getLast?_cons, ended]
      rfl
    · exact .inr (congrArg (x :: ·) all)

end TakeLine

section Lines

variable (schedule : ReadSchedule)

/-- The strings of successive calls until a null pointer, with the sizes of their buffers. A string ends at its
first zero byte. -/
inductive FgetsRun : (ℕ → ℤ) → InStream → List (List Byte) → Prop where
  | null {sizes : ℕ → ℤ} {st : InStream} (ended : (fgets schedule (sizes 0) st).1 = none) : FgetsRun sizes st []
  | line {sizes : ℕ → ℤ} {st next : InStream} {stored : List Byte} {lines : List (List Byte)}
      (read : fgets schedule (sizes 0) st = (some stored, next))
      (later : FgetsRun (fun index => sizes (index + 1)) next lines) :
      FgetsRun sizes st (stored.takeWhile (· ≠ 0) :: lines)

/-- The line is as long as its buffer allows, unless its end or the end of the stream comes first. -/
structure LineFits (size : ℤ) (line : List Byte) (ended : Prop) : Prop where
  nonempty : 1 ≤ line.length
  fits : line.length ≤ size - 1
  newline : 10 ∉ line.dropLast
  short : line.length < size - 1 → line.getLast? = some 10 ∨ ended

/-- The lines are the stream, cut where a line or its buffer ends. -/
structure CutIntoLines (sizes : ℕ → ℤ) (stream : List Byte) (lines : List (List Byte)) : Prop where
  whole : lines.flatten = stream
  fits : ∀ index line, lines[index]? = some line →
    LineFits (sizes index) line ((lines.take (index + 1)).flatten = stream)

variable {schedule} {st : InStream}

/-- With reliable reads a call returns a null pointer at the end of the stream and its next line before that. -/
theorem fgets_line (reliable : schedule.Reliable) (slot : st.file.SlotValid) {size : ℤ} (room : 2 ≤ size) :
    st.logical = [] ∧ (fgets schedule size st).1 = none ∨
      st.logical ≠ [] ∧ ∃ next, fgets schedule size st = (some (takeLine (size - 1).toNat st.logical), next) ∧
        next.logical = st.logical.drop (takeLine (size - 1).toNat st.logical).length ∧ next.file.SlotValid := by
  obtain ⟨extra, enough⟩ : ∃ extra, (size - 1).toNat = extra + 1 := ⟨(size - 2).toNat, by omega⟩
  have takes := fgets_takes schedule size slot
  rcases eq_or_ne st.logical [] with empty | more
  · refine .inl ⟨empty, ?_⟩
    rcases fgetc_cases schedule slot with ⟨x, rest, stream, -⟩ | ⟨got, -⟩
    · rw [empty] at stream
      cases stream
    · rw [fgets, if_neg (by omega), enough, fgetsLoop]
      simp only [got, if_true]
  · refine .inr ⟨more, (fgets schedule size st).2, ?_, ?_, takes.slot⟩
    · have line := takes.full reliable
      have nonempty : takeLine (size - 1).toNat st.logical ≠ [] := takeLine_ne_nil (by omega) more
      cases text : (fgets schedule size st).1 with
      | none =>
        rw [text] at line
        exact absurd line.symm nonempty
      | some stored =>
        rw [text, Option.getD_some] at line
        rw [← line, ← text]
    · rw [← takes.full reliable]
      exact takes.rest

theorem takeLine_fits {size : ℤ} (room : 2 ≤ size) {stream : List Byte} (more : stream ≠ []) :
    LineFits size (takeLine (size - 1).toNat stream) (takeLine (size - 1).toNat stream = stream) := by
  have most := takeLine_length_le (size - 1).toNat stream
  refine ⟨?_, by omega, takeLine_newline _ _, ?_⟩
  · exact List.length_pos_of_ne_nil (takeLine_ne_nil (by omega) more)
  · intro short
    exact takeLine_short (by omega)

/-- One more line in front. -/
theorem CutIntoLines.cons {sizes : ℕ → ℤ} {stream line : List Byte} {lines : List (List Byte)}
    (first : LineFits (sizes 0) line (line = line ++ stream))
    (later : CutIntoLines (fun index => sizes (index + 1)) stream lines) :
    CutIntoLines sizes (line ++ stream) (line :: lines) := by
  refine ⟨by rw [List.flatten_cons, later.whole], ?_⟩
  rintro (_ | index) other member
  · obtain rfl := Option.some.inj member
    simpa using first
  · have fits := later.fits index other member
    refine ⟨fits.nonempty, fits.fits, fits.newline, ?_⟩
    intro short
    refine (fits.short short).imp_right ?_
    intro ended
    rw [List.take_succ_cons, List.flatten_cons, ended]

/-- The run from any state of the stream. -/
theorem fgets_cuts (reliable : schedule.Reliable) (slot : st.file.SlotValid) (plain : 0 ∉ st.logical) (sizes : ℕ → ℤ)
    (room : ∀ index, 2 ≤ sizes index) :
    ∃ lines, FgetsRun schedule sizes st lines ∧ CutIntoLines sizes st.logical lines := by
  -- Every line takes at least one byte, so the induction is on what is left of the stream.
  induction bound : st.logical.length using Nat.strong_induction_on generalizing st sizes with
  | _ left ih =>
    rcases fgets_line reliable slot (room 0) with ⟨empty, ended⟩ | ⟨more, next, read, rest, kept⟩
    · exact ⟨[], .null ended, ⟨empty.symm, nofun⟩⟩
    · have fits := takeLine_fits (room 0) more
      have front := takeLine_prefix (sizes 0 - 1).toNat st.logical
      generalize takeLine (sizes 0 - 1).toNat st.logical = line at read rest fits front
      obtain ⟨stream, split⟩ := front
      rw [← split, List.drop_left] at rest
      rw [← split, List.mem_append, not_or] at plain
      have positive := fits.nonempty
      have shorter : next.logical.length < left := by
        rw [← bound, ← split, rest, List.length_append]
        omega
      obtain ⟨lines, run, cut⟩ := ih _ shorter kept (rest ▸ plain.2) (fun index => sizes (index + 1))
        (fun index => room (index + 1)) rfl
      have string : line.takeWhile (· ≠ 0) = line := by
        apply List.takeWhile_eq_self_iff.mpr
        intro byte member
        simpa using ne_of_mem_of_not_mem member plain.1
      refine ⟨line :: lines, ?_, ?_⟩
      · have first := FgetsRun.line read run
        rwa [string] at first
      · rw [← split] at fits ⊢
        rw [rest] at cut
        exact .cons fits cut

/-- The strings of successive calls on a fresh stream are its bytes, cut where a line or its buffer ends. -/
theorem fgets_cuts_stream (schedule : ReadSchedule) (reliable : schedule.Reliable) (fd : ℤ) (reads : ℕ)
    (stream : List Byte) (plain : 0 ∉ stream) (sizes : ℕ → ℤ) (room : ∀ index, 2 ≤ sizes index) :
    ∃ lines, FgetsRun schedule sizes ⟨fdopen fd, stream, reads⟩ lines ∧ CutIntoLines sizes stream lines := by
  have fresh : InStream.logical ⟨fdopen fd, stream, reads⟩ = stream := logical_of_empty rfl
  have nonzero : 0 ∉ InStream.logical ⟨fdopen fd, stream, reads⟩ := by rwa [fresh]
  have cuts := fgets_cuts reliable (.inl rfl) nonzero sizes room
  rwa [fresh] at cuts

/-- A line that is longer than its buffer, and one without an end. -/
theorem fgets_cuts_stream_pieces :
    ∃ lines, FgetsRun (fun _ => some 1) (fun _ => 3) ⟨fdopen 4, [65, 66, 67, 10, 68], 0⟩ lines ∧
      CutIntoLines (fun _ => 3) [65, 66, 67, 10, 68] lines :=
  fgets_cuts_stream (fun _ => some 1) (by rintro _ ⟨⟩) 4 0 [65, 66, 67, 10, 68] (by decide) (fun _ => 3)
    (fun _ => by decide)

end Lines

end CLite
