import CLite.Spec.Indicators

/-! # What the indicators of a stream say

A read of `fgetc` that does not return one byte sets the end of file, whether it returned `0` or failed, and it
never sets the error. `fseek` and `rewind` leave both indicators as they are. Where no call runs into one of
these, the indicators are what the history says.
-/

namespace CLite

open ByteMemory CallRun History

variable {kernel : StreamKernel} {st : RecordedStream} {history : List StreamEvent}

section Events

variable {n : ℤ} {event : StreamEvent}

attribute [simp] StreamEvent.Failed StreamEvent.EndsEof StreamEvent.EndsError

@[simp] theorem endReached_cons :
    EndReached (event :: history) ↔ event = .read 0 ∨ ¬ event.EndsEof ∧ EndReached history :=
  since_cons

@[simp] theorem errorMet_cons : ErrorMet (event :: history) ↔ event.Failed ∨ ¬ event.EndsError ∧ ErrorMet history :=
  since_cons

theorem endReached_read : EndReached (.read n :: history) ↔ n = 0 ∨ EndReached history := by simp

theorem errorMet_read : ErrorMet (.read n :: history) ↔ n < 0 ∨ ErrorMet history := by simp

/-- Reads that deliver a byte. -/
def Delivering (events : List StreamEvent) : Prop := ∀ event ∈ events, event = .read 1

theorem Delivering.endReached {events : List StreamEvent} (delivering : Delivering events) :
    EndReached (events ++ history) ↔ EndReached history := by
  apply since_append
  intro event member
  rw [delivering event member]
  simp

theorem Delivering.errorMet {events : List StreamEvent} (delivering : Delivering events) :
    ErrorMet (events ++ history) ↔ ErrorMet history := by
  apply since_append
  intro event member
  rw [delivering event member]
  simp

end Events

theorem truthful_iff : Truthful st ↔
    (st.file.eof = true → EndReached st.state) ∧ (st.file.error = true ↔ ErrorMet st.state) := by
  constructor
  · intro truthful
    obtain ⟨eof, error⟩ := truthful
    simpa [Stream.feof, Stream.ferror] using And.intro eof error
  · rintro ⟨eof, error⟩
    exact ⟨by simpa [Stream.feof] using eof, by simpa [Stream.ferror] using error⟩

/-- An end of file that has been reached is always set: only calls that take it back clear it. -/
def Registered (st : RecordedStream) : Prop := EndReached st.state → st.file.eof = true

/-! ## One call -/

/-- What a read answers: an error, or as many bytes as it delivers. -/
theorem StreamKernel.read_cases (kernel : StreamKernel) (n : ℕ) (history : List StreamEvent) :
    ∃ result bytes, kernel.descriptor.read n history = (result, bytes, .read result :: history) ∧ result ≤ n := by
  simp only [StreamKernel.descriptor]
  split
  · exact ⟨_, _, rfl, by omega⟩
  · refine ⟨_, _, rfl, ?_⟩
    rw [List.length_take]
    omega

/-- What `fgetc` does: it takes the pushed-back character, or it makes one read. -/
theorem fgetc_recorded (kernel : StreamKernel) (st : RecordedStream) :
    (st.file.unget ≠ -1 ∧
      kernel.descriptor.fgetc st = (st.file.unget, ⟨{ st.file with unget := -1 }, st.state⟩)) ∨
    st.file.unget = -1 ∧
      ((∃ code, kernel.read st.state = .error code ∧ kernel.descriptor.fgetc st =
          (EOF, ⟨{ st.file with eof := true }, .read (Int.negSucc code) :: st.state⟩)) ∨
        (kernel.read st.state = .ok [] ∧ kernel.descriptor.fgetc st =
          (EOF, ⟨{ st.file with eof := true }, .read 0 :: st.state⟩)) ∨
        ∃ byte more, kernel.read st.state = .ok (byte :: more) ∧ kernel.descriptor.fgetc st =
          ((byte.toNat : ℤ), ⟨st.file, .read 1 :: st.state⟩)) := by
  rcases em (st.file.unget = -1) with empty | pending
  · refine .inr ⟨empty, ?_⟩
    simp only [Descriptor.fgetc, empty, ne_eq, not_true_eq_false, if_false, StreamKernel.descriptor]
    cases kernel.read st.state with
    | error code => exact .inl ⟨code, rfl, by simp⟩
    | ok ready =>
      cases ready with
      | nil => exact .inr (.inl ⟨rfl, by simp⟩)
      | cons byte more => exact .inr (.inr ⟨byte, more, rfl, by simp⟩)
  · exact .inl ⟨pending, by rw [Descriptor.fgetc, if_pos pending]⟩

/-- What `fgetc` and `fgets` do to a stream: they deliver bytes, and then possibly a read that does not deliver
sets the end of file; it has failed if `fails`. The error is left alone. -/
structure Scanned (st next : RecordedStream) (fails : Prop) : Prop where
  error : next.file.error = st.file.error
  events : ∃ events, Delivering events ∧
    ((next.state = events ++ st.state ∧ next.file.eof = st.file.eof ∧ ¬ fails) ∨
      ∃ result ≤ 0, next.state = .read result :: (events ++ st.state) ∧ next.file.eof = true ∧
        (result < 0 ↔ fails))

variable {fails : Prop}

theorem Scanned.quiet {next : RecordedStream} {events : List StreamEvent} (delivering : Delivering events)
    (state : next.state = events ++ st.state) (eof : next.file.eof = st.file.eof)
    (error : next.file.error = st.file.error) (succeeds : ¬ fails) : Scanned st next fails :=
  ⟨error, events, delivering, .inl ⟨state, eof, succeeds⟩⟩

/-- A read that does not deliver. -/
theorem Scanned.stops {result : ℤ} (nothing : result ≤ 0) (failed : result < 0 ↔ fails) :
    Scanned st ⟨{ st.file with eof := true }, .read result :: st.state⟩ fails :=
  ⟨rfl, [], by simp [Delivering], .inr ⟨result, nothing, rfl, rfl, failed⟩⟩

/-- A step that delivers, then a scan. -/
theorem Scanned.after {st mid next : RecordedStream} (scanned : Scanned mid next fails)
    {events : List StreamEvent} (delivering : Delivering events) (state : mid.state = events ++ st.state)
    (eof : mid.file.eof = st.file.eof) (error : mid.file.error = st.file.error) : Scanned st next fails := by
  obtain ⟨same, more, delivers, outcome⟩ := scanned
  refine ⟨same.trans error, more ++ events, ?_, ?_⟩
  · intro event member
    rcases List.mem_append.mp member with member | member
    · exact delivers event member
    · exact delivering event member
  · rw [List.append_assoc, ← state, ← eof]
    exact outcome

theorem delivering_nil : Delivering [] := by simp [Delivering]

theorem delivering_one : Delivering [.read 1] := by simp [Delivering]

theorem fgetc_scanned (kernel : StreamKernel) (st : RecordedStream) :
    Scanned st (kernel.descriptor.fgetc st).2 (ReadFails kernel st 1) := by
  rcases fgetc_recorded kernel st with ⟨pending, result⟩ |
    ⟨empty, ⟨code, answer, result⟩ | ⟨answer, result⟩ | ⟨byte, more, answer, result⟩⟩ <;> rw [result]
  · exact .quiet delivering_nil rfl rfl rfl (by simp [ReadFails, pending, StreamKernel.FailsInLine])
  · exact .stops (by omega) (by simp [ReadFails, empty, StreamKernel.FailsInLine, answer])
  · exact .stops le_rfl (by simp [ReadFails, empty, StreamKernel.FailsInLine, answer])
  · exact .quiet delivering_one rfl rfl rfl (by simp [ReadFails, empty, StreamKernel.FailsInLine, answer])

/-- The loop of `fgets` when no character is pushed back. -/
theorem fgetsLoop_scanned (kernel : StreamKernel) (room : ℕ) (stored : List Byte) {st : RecordedStream}
    (unpushed : st.file.unget = -1) :
    Scanned st (kernel.descriptor.fgetsLoop room stored st).2 (kernel.FailsInLine room st.state) := by
  induction room generalizing stored st with
  | zero => exact .quiet delivering_nil rfl rfl rfl (by simp [StreamKernel.FailsInLine])
  | succ room ih =>
    rcases fgetc_recorded kernel st with ⟨pending, -⟩ |
      ⟨-, ⟨code, answer, result⟩ | ⟨answer, result⟩ | ⟨byte, more, answer, result⟩⟩
    · exact absurd unpushed pending
    · simp only [Descriptor.fgetsLoop, result, if_true, StreamKernel.FailsInLine, answer]
      exact .stops (by omega) (by simp)
    · simp only [Descriptor.fgetsLoop, result, if_true, StreamKernel.FailsInLine, answer]
      exact .stops le_rfl (by simp)
    · have character : (byte.toNat : ℤ) ≠ EOF := by simp only [EOF]; omega
      have newline : (byte.toNat : ℤ) = 10 ↔ byte = 10 := by
        rw [← BitVec.toNat_inj]
        exact Int.natCast_inj
      simp only [Descriptor.fgetsLoop, result, if_neg character, newline, StreamKernel.FailsInLine, answer]
      split
      next ends => exact .quiet delivering_one rfl rfl rfl (by simp [ends])
      next inside =>
        simp only [ne_eq, inside, not_false_eq_true, true_and]
        exact .after (ih _ unpushed) delivering_one rfl rfl rfl

theorem fgets_scanned (kernel : StreamKernel) (size : ℤ) (st : RecordedStream) :
    Scanned st (kernel.descriptor.fgets size st).2 (ReadFails kernel st (size - 1).toNat) := by
  rw [Descriptor.fgets]
  split
  next none =>
    rw [show (size - 1).toNat = 0 by omega]
    exact .quiet delivering_nil rfl rfl rfl (by simp [ReadFails, StreamKernel.FailsInLine])
  next some =>
    generalize (size - 1).toNat = room
    rcases fgetc_recorded kernel st with ⟨pending, result⟩ | ⟨empty, -⟩
    · cases room with
      | zero => exact .quiet delivering_nil rfl rfl rfl (by simp [ReadFails, StreamKernel.FailsInLine])
      | succ room =>
        simp only [Descriptor.fgetsLoop, result, if_neg (show st.file.unget ≠ EOF from pending), ReadFails,
          if_neg pending]
        split
        next ends => exact .quiet delivering_nil rfl rfl rfl (by simp [ends])
        next inside =>
          simp only [ne_eq, inside, not_false_eq_true, true_and]
          exact .after (fgetsLoop_scanned kernel room _ rfl) delivering_nil rfl rfl rfl
    · rw [ReadFails, if_pos empty]
      exact fgetsLoop_scanned kernel room [] empty

/-- A scan keeps the indicators truthful exactly if no read fails in it, or both are set already. -/
theorem Scanned.truthful_iff {next : RecordedStream} (scanned : Scanned st next fails)
    (registered : Registered st) (truthful : Truthful st) :
    Registered next ∧ (Truthful next ↔ (st.file.eof ∧ st.file.error) ∨ ¬ fails) := by
  obtain ⟨eof, error⟩ := CLite.truthful_iff.mp truthful
  obtain ⟨same, events, delivering, ⟨state, kept, succeeds⟩ | ⟨result, nothing, state, set, failed⟩⟩ := scanned
  · rw [Registered, CLite.truthful_iff, state, kept, same, delivering.endReached, delivering.errorMet]
    exact ⟨registered, iff_of_true ⟨eof, error⟩ (.inr succeeds)⟩
  · rw [Registered, CLite.truthful_iff, state, set, same, endReached_read, errorMet_read,
      delivering.endReached, delivering.errorMet, ← failed]
    refine ⟨fun _ => rfl, ?_⟩
    rcases lt_or_eq_of_le nothing with negative | rfl
    · simp only [negative, negative.ne, true_or, false_or, not_true_eq_false, or_false, iff_true, true_implies]
      exact and_congr_left fun _ => ⟨registered, eof⟩
    · exact iff_of_true ⟨fun _ => .inl rfl, by simpa using error⟩ (.inr (lt_irrefl 0))

theorem fread_truthful (kernel : StreamKernel) (registered : Registered st) (truthful : Truthful st)
    (size nmemb : ℕ) :
    Registered (kernel.descriptor.fread size nmemb st).2.2 ∧
      Truthful (kernel.descriptor.fread size nmemb st).2.2 := by
  obtain ⟨eof, error⟩ := truthful_iff.mp truthful
  obtain ⟨result, bytes, answer, -⟩ := kernel.read_cases (freadTotal size nmemb) st.state
  rw [Descriptor.fread]
  split
  · exact ⟨registered, truthful⟩
  · simp only [answer, truthful_iff, Registered]
    split
    next nothing =>
      split
      next zero => simpa [zero] using error
      next nonzero =>
        have failed : result < 0 := by omega
        simpa [nonzero, failed] using ⟨registered, eof⟩
    next some =>
      have nonzero : result ≠ 0 := by omega
      have succeeded : ¬ result < 0 := by omega
      simpa [nonzero, succeeded] using ⟨registered, eof, error⟩

theorem fwrite_truthful (kernel : StreamKernel) (registered : Registered st) (truthful : Truthful st)
    (ptr : List Byte) (size nmemb : ℕ) :
    Registered (kernel.descriptor.fwrite ptr size nmemb st).2 ∧
      Truthful (kernel.descriptor.fwrite ptr size nmemb st).2 := by
  obtain ⟨eof, error⟩ := truthful_iff.mp truthful
  rw [Descriptor.fwrite]
  split
  · exact ⟨registered, truthful⟩
  · simp only [StreamKernel.descriptor]
    rcases lt_or_ge (kernel.write st.state) 0 with failed | succeeded
    · simpa [failed, truthful_iff, Registered] using ⟨registered, eof⟩
    · simpa [not_lt.mpr succeeded, truthful_iff, Registered] using ⟨registered, eof, error⟩

theorem fseek_truthful_iff (registered : Registered st) (truthful : Truthful st) (offset whence : ℤ) :
    Registered (execIndicator kernel st (.fseek offset whence)) ∧
      (Truthful (execIndicator kernel st (.fseek offset whence)) ↔
        Indicated kernel st (.fseek offset whence)) := by
  obtain ⟨eof, error⟩ := truthful_iff.mp truthful
  simp only [execIndicator, Descriptor.fseek, StreamKernel.descriptor, RecordedStream.record, truthful_iff,
    Registered, Indicated]
  rcases le_or_gt 0 (kernel.lseek st.state) with moved | refused
  · simp [moved, error, not_lt.mpr moved]
  · simpa [not_le.mpr refused, error, refused] using ⟨registered, eof⟩

theorem indicatorStep_truthful_iff (registered : Registered st) (truthful : Truthful st) (call : IndicatorCall) :
    Registered (execIndicator kernel st call) ∧
      (Truthful (execIndicator kernel st call) ↔ Indicated kernel st call) := by
  obtain ⟨eof, error⟩ := truthful_iff.mp truthful
  cases call with
  | fgetc => exact (fgetc_scanned kernel st).truthful_iff registered truthful
  | fgets size => exact (fgets_scanned kernel size st).truthful_iff registered truthful
  | fread size nmemb =>
    obtain ⟨kept, still⟩ := fread_truthful kernel registered truthful size nmemb
    exact ⟨kept, iff_of_true still trivial⟩
  | fwrite ptr size nmemb =>
    obtain ⟨kept, still⟩ := fwrite_truthful kernel registered truthful ptr size nmemb
    exact ⟨kept, iff_of_true still trivial⟩
  | ungetc c =>
    simp only [execIndicator, Stream.ungetc, Indicated, iff_true]
    rcases eq_or_ne c EOF with refused | pushed
    · simpa only [refused, if_pos] using ⟨registered, truthful⟩
    · simpa [pushed, RecordedStream.record, truthful_iff, Registered] using error
  | fseek offset whence => exact fseek_truthful_iff registered truthful offset whence
  | rewind =>
    simp [execIndicator, Descriptor.rewind, Descriptor.fseek, StreamKernel.descriptor, RecordedStream.record,
      truthful_iff, Registered, Indicated]
  | clearerr =>
    simp [execIndicator, Stream.clearerr, RecordedStream.record, truthful_iff, Registered, Indicated]

theorem opened_truthful (fd : ℤ) : Registered (opened fd) ∧ Truthful (opened fd) := by
  simp [Registered, truthful_iff, opened, fdopen, EndReached, ErrorMet]

/-- Whatever the kernel answers, the indicators tell the truth after every call of a run exactly if each call is
made where it keeps them truthful. -/
theorem indicators_truthful_iff (kernel : StreamKernel) (fd : ℤ) (calls : List IndicatorCall) :
    (∀ done, done <+: calls → ∃ st, run (indicatorStep kernel) (opened fd) done = some st ∧ Truthful st) ↔
      Permitted (indicatorStep kernel) (Indicated kernel) (opened fd) calls := by
  obtain ⟨registered, truthful⟩ := opened_truthful fd
  refine (permitted_iff Registered Truthful ?_ registered truthful calls).symm
  intro st call registered truthful
  obtain ⟨kept, correct⟩ := indicatorStep_truthful_iff registered truthful call
  exact ⟨_, rfl, kept, correct⟩

/-- A kernel that fails every read and write, and one that has nothing to read and fails every write. -/
def failing : StreamKernel := ⟨fun _ => .error 4, fun _ => -5, fun _ => 0⟩

def exhausted : StreamKernel := ⟨fun _ => .ok [], fun _ => -5, fun _ => 0⟩

/-- An end of file, a seek once it is taken back, an error, and a rewind once that is taken back too. -/
theorem indicators_truthful_iff_exhausted :
    ∀ done, done <+: [.fgetc, .ungetc 65, .fseek 0 0, .fwrite [65] 1 1, .clearerr, .rewind] →
      ∃ st, run (indicatorStep exhausted) (opened 3) done = some st ∧ Truthful st := by
  apply (indicators_truthful_iff exhausted 3 _).mpr
  have succeeds : ¬ ReadFails exhausted (opened 3) 1 := by
    simp [ReadFails, opened, fdopen, StreamKernel.FailsInLine, exhausted]
  refine .cons (.inr succeeds) rfl (.cons trivial rfl (.cons (.inl rfl) rfl ?_))
  exact .cons trivial rfl (.cons trivial rfl (.cons ⟨rfl, rfl⟩ rfl trivial))

/-- A read error in `fgetc` is reported as an end of file and not as an error, and `rewind` leaves an end of file
set. -/
theorem fgetc_error_reported_as_eof :
    (∃ st, run (indicatorStep failing) (opened 3) [.fgetc] = some st ∧ st.feof ≠ 0 ∧ ¬ EndReached st.state ∧
      st.ferror = 0 ∧ ErrorMet st.state) ∧
    ∃ st, run (indicatorStep exhausted) (opened 3) [.fgetc, .rewind] = some st ∧ st.feof ≠ 0 ∧
      ¬ EndReached st.state := by
  refine ⟨⟨_, rfl, by decide, ?_, rfl, ?_⟩, ⟨_, rfl, by decide, ?_⟩⟩
  · change ¬ EndReached [.read (-5)]
    rw [endReached_read]
    simp [EndReached]
  · change ErrorMet [.read (-5)]
    rw [errorMet_read]
    exact .inl (by decide)
  · change ¬ EndReached (.rewind :: _)
    simp

end CLite
