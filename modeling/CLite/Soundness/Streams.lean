import CLite.Lib.CallRun
import CLite.Spec.LogicalStream

/-! # Input streams deliver bytes in order

`fgetc`, and with it `getc` and `fgets`, takes the pushed-back byte first. `getchar` and `fread` go to the
descriptor and leave it pending, so the bytes of the descriptor overtake it. `fread` also drops the bytes of
an item that a short count cuts. Without these calls every interleaving delivers the logical stream.
-/

namespace CLite

open ByteMemory

/-- No call of `read` fails. -/
def ReadSchedule.Reliable (schedule : ReadSchedule) : Prop := ∀ index, schedule index ≠ none

/-- The pushback slot is empty or holds a byte. -/
def FILE.SlotValid (file : FILE) : Prop := file.unget = -1 ∨ 0 ≤ file.unget ∧ file.unget < 256

section Read

variable (schedule : ReadSchedule)

theorem readCount_le (offered n available : ℕ) :
    readCount offered n available ≤ n ∧ readCount offered n available ≤ available := by
  simp only [readCount]
  omega

theorem readCount_eq_zero {offered n available : ℕ} (empty : readCount offered n available = 0) :
    n = 0 ∨ available = 0 := by
  simp only [readCount] at empty
  omega

/-- A request for one byte takes the first unread one, or returns another number than one. -/
theorem readBytes_one (st : InStream) :
    (∃ x rest, st.unread = x :: rest ∧
      readBytes schedule 1 st = (1, [x], { st with unread := rest, reads := st.reads + 1 })) ∨
    (∃ n, n ≠ 1 ∧ readBytes schedule 1 st = (n, [], { st with reads := st.reads + 1 }) ∧
      (schedule.Reliable → st.unread = [])) := by
  cases scheduled : schedule st.reads with
  | none =>
    refine .inr ⟨-1, by decide, by simp only [readBytes, scheduled], ?_⟩
    intro reliable
    exact absurd scheduled (reliable _)
  | some offered =>
    cases unread : st.unread with
    | nil =>
      have none_left : readCount offered 1 0 = 0 := by simp [readCount]
      refine .inr ⟨0, by decide, ?_, fun _ => rfl⟩
      simp [readBytes, scheduled, unread, none_left]
    | cons x rest =>
      have one : readCount offered 1 (rest.length + 1) = 1 := by
        simp only [readCount]
        omega
      exact .inl ⟨x, rest, rfl, by simp [readBytes, scheduled, unread, one]⟩

end Read

section Logical

theorem logical_of_empty {st : InStream} (empty : st.file.unget = -1) : st.logical = st.unread := by
  simp [InStream.logical, empty]

theorem logical_of_pending {st : InStream} (pending : st.file.unget ≠ -1) :
    st.logical = BitVec.ofInt 8 st.file.unget :: st.unread := by
  simp [InStream.logical, pending]

theorem deliveredByte_toNat (x : Byte) : deliveredByte (x.toNat : ℤ) = [x] := by
  have notEof : (x.toNat : ℤ) ≠ EOF := by simp only [EOF]; omega
  rw [deliveredByte, if_neg notEof, BitVec.ofInt_natCast, BitVec.ofNat_toNat, BitVec.setWidth_eq]

theorem toNat_ofInt_byte {c : ℤ} (low : 0 ≤ c) (high : c < 256) : ((BitVec.ofInt 8 c).toNat : ℤ) = c := by
  rw [BitVec.toNat_ofInt]
  omega

/-- A call takes `delivered` of what it should take from the front of a logical stream. -/
structure Takes (reliable : Prop) (stream whole delivered : List Byte) (next : InStream) : Prop where
  short : delivered <+: whole
  full : reliable → delivered = whole
  rest : next.logical = stream.drop delivered.length
  slot : next.file.SlotValid

theorem Takes.advances {reliable : Prop} {stream whole delivered : List Byte} {next : InStream}
    (takes : Takes reliable stream whole delivered next) :
    (delivered <+: whole ∧ (reliable → delivered = whole)) ∧
      next.logical = stream.drop delivered.length ∧ next.file.SlotValid :=
  ⟨⟨takes.short, takes.full⟩, takes.rest, takes.slot⟩

end Logical

section Steps

variable (schedule : ReadSchedule) {st : InStream}

/-- A character is the first byte of the logical stream; without one the stream has not moved. -/
theorem fgetc_cases (slot : st.file.SlotValid) :
    (∃ x rest, st.logical = x :: rest ∧ (fgetc schedule st).1 = x.toNat ∧
      (fgetc schedule st).2.logical = rest ∧ (fgetc schedule st).2.file.SlotValid) ∨
    ((fgetc schedule st).1 = EOF ∧ (fgetc schedule st).2.logical = st.logical ∧
      (fgetc schedule st).2.file.SlotValid ∧ (schedule.Reliable → st.logical = [])) := by
  rcases eq_or_ne st.file.unget (-1) with empty | pending
  · have stream := logical_of_empty empty
    rcases readBytes_one schedule st with ⟨x, rest, unread, got⟩ | ⟨n, other, got, drained⟩
    · refine .inl ⟨x, rest, stream.trans unread, ?_⟩
      simp [fgetc, got, empty, InStream.logical, FILE.SlotValid]
    · refine .inr ?_
      simp only [fgetc, got, empty, ne_eq, not_true_eq_false, if_false, other]
      refine ⟨trivial, ?_, .inl rfl, fun reliable => stream.trans (drained reliable)⟩
      simp [InStream.logical, empty]
  · obtain ⟨low, high⟩ := slot.resolve_left pending
    refine .inl ⟨BitVec.ofInt 8 st.file.unget, st.unread, logical_of_pending pending, ?_⟩
    rw [toNat_ofInt_byte low high]
    simp [fgetc, pending, InStream.logical, FILE.SlotValid]

theorem fgetc_takes (slot : st.file.SlotValid) :
    Takes schedule.Reliable st.logical (st.logical.take 1) (deliveredByte (fgetc schedule st).1)
      (fgetc schedule st).2 := by
  rcases fgetc_cases schedule slot with ⟨x, rest, stream, got, left, kept⟩ | ⟨got, left, kept, drained⟩
  · rw [stream, got, deliveredByte_toNat]
    exact ⟨by simp, fun _ => by simp, by simpa using left, kept⟩
  · have nothing : deliveredByte (fgetc schedule st).1 = [] := by rw [got, deliveredByte, if_pos rfl]
    rw [nothing]
    exact ⟨List.nil_prefix, fun reliable => by simp [drained reliable], by simpa using left, kept⟩

/-- The loop adds to what is stored the rest of the line that there is room for. -/
theorem fgetsLoop_takes (room : ℕ) (stored : List Byte) (slot : st.file.SlotValid) :
    ∃ delivered, (fgetsLoop schedule room stored st).1.getD [] = stored ++ delivered ∧
      Takes schedule.Reliable st.logical (takeLine room st.logical) delivered
        (fgetsLoop schedule room stored st).2 := by
  -- Each round is one `fgetc`; `stored` only grows at its end.
  induction room generalizing stored st with
  | zero => exact ⟨[], by simp [fgetsLoop], ⟨List.nil_prefix, fun _ => rfl, rfl, slot⟩⟩
  | succ room ih =>
    rcases fgetc_cases schedule slot with ⟨x, rest, stream, got, left, kept⟩ | ⟨got, left, kept, drained⟩
    · have notEof : (x.toNat : ℤ) ≠ EOF := by simp only [EOF]; omega
      have stores : BitVec.ofInt 8 (x.toNat : ℤ) = x := by
        rw [BitVec.ofInt_natCast, BitVec.ofNat_toNat, BitVec.setWidth_eq]
      have newline : (x.toNat : ℤ) = 10 ↔ x = 10 := by
        rw [← BitVec.toNat_inj]
        simp
        omega
      simp only [fgetsLoop, got, notEof, if_false, newline, stores, stream, takeLine]
      split
      · exact ⟨[x], rfl, List.prefix_rfl, fun _ => rfl, left, kept⟩
      · obtain ⟨delivered, text, takes⟩ := ih (stored ++ [x]) kept
        rw [left] at takes
        refine ⟨x :: delivered, by simpa using text, ?_, ?_, takes.rest, takes.slot⟩
        · exact (List.prefix_cons_inj x).mpr takes.short
        · exact fun reliable => congrArg _ (takes.full reliable)
    · refine ⟨[], ?_, List.nil_prefix, ?_, ?_, ?_⟩
      · simp only [fgetsLoop, got, if_true]
        split
        next none_stored => simp [none_stored]
        next => simp
      · intro reliable
        rw [drained reliable, takeLine]
      · simpa only [fgetsLoop, got, if_true, List.length_nil, List.drop_zero] using left
      · simpa only [fgetsLoop, got, if_true] using kept

theorem fgets_takes (size : ℤ) (slot : st.file.SlotValid) :
    Takes schedule.Reliable st.logical (takeLine (size - 1).toNat st.logical)
      ((fgets schedule size st).1.getD []) (fgets schedule size st).2 := by
  rw [fgets]
  split
  next none_fit =>
    have room : (size - 1).toNat = 0 := by omega
    rw [room]
    exact ⟨List.nil_prefix, fun _ => rfl, rfl, slot⟩
  next =>
    obtain ⟨delivered, text, takes⟩ := fgetsLoop_takes schedule (size - 1).toNat [] slot
    rw [text]
    exact takes

theorem getchar_takes (empty : st.file.unget = -1) :
    Takes schedule.Reliable st.logical (st.logical.take 1) (deliveredByte (getchar schedule st).1)
      (getchar schedule st).2 := by
  rw [logical_of_empty empty]
  rcases readBytes_one schedule st with ⟨x, rest, unread, got⟩ | ⟨n, other, got, drained⟩
  · simp only [getchar, got, if_true, List.headD_cons, deliveredByte_toNat, unread]
    exact ⟨by simp, fun _ => by simp, by simp [InStream.logical, empty], .inl empty⟩
  · simp only [getchar, got, other, if_false, deliveredByte, if_true]
    exact ⟨List.nil_prefix, fun reliable => by simp [drained reliable],
      by simp [InStream.logical, empty], .inl empty⟩

/-- The count that the next call of `read` returns to `fread` is a whole number of items. -/
def WholeItems (st : InStream) (size nmemb : ℕ) : Prop :=
  ∀ offered, schedule st.reads = some offered →
    size ∣ readCount offered (freadTotal size nmemb) st.unread.length

/-- What `fread` takes from the descriptor; the pushback slot is not looked at. -/
theorem fread_counted {size nmemb offered : ℕ} (positive : ¬(size = 0 ∨ nmemb = 0))
    (scheduled : schedule st.reads = some offered)
    (whole : size ∣ readCount offered (freadTotal size nmemb) st.unread.length) :
    let count := readCount offered (freadTotal size nmemb) st.unread.length
    let (delivered, next) := execStream schedule st (.fread size nmemb)
    delivered = st.unread.take count ∧ next.unread = st.unread.drop count ∧
      next.file.unget = st.file.unget := by
  have items := Nat.div_mul_cancel whole
  simp only [execStream, fread, positive, if_false, readBytes, scheduled]
  generalize readCount offered (freadTotal size nmemb) st.unread.length = count at items
  rcases Nat.eq_zero_or_pos count with rfl | some_read
  · simp
  · have more : count ≠ 0 := by omega
    simp [more, items]

/-- An `fread` of no items returns before it reads. -/
theorem fread_nothing {size nmemb : ℕ} (none_asked : size = 0 ∨ nmemb = 0) :
    execStream schedule st (.fread size nmemb) = ([], st) := by
  simp [execStream, fread, none_asked]

/-- With whole items and nothing pushed back, `fread` delivers what the descriptor has given. -/
theorem fread_takes {size nmemb : ℕ} (positive : ¬(size = 0 ∨ nmemb = 0)) (empty : st.file.unget = -1)
    (whole : WholeItems schedule st size nmemb) :
    ∃ count, (execStream schedule st (.fread size nmemb)).1 = st.unread.take count ∧
      (execStream schedule st (.fread size nmemb)).2.unread = st.unread.drop count ∧
      (execStream schedule st (.fread size nmemb)).2.file.unget = -1 ∧
      count ≤ freadTotal size nmemb ∧ count ≤ st.unread.length ∧
      (schedule.Reliable → count = 0 → st.unread = [] ∨ freadTotal size nmemb = 0) := by
  cases scheduled : schedule st.reads with
  | none =>
    refine ⟨0, ?_, ?_, ?_, Nat.zero_le _, Nat.zero_le _, fun reliable => absurd scheduled (reliable _)⟩
    all_goals simp [execStream, fread, positive, readBytes, scheduled, empty]
  | some offered =>
    obtain ⟨delivered, left, slot⟩ := fread_counted schedule positive scheduled (whole offered scheduled)
    have bounds := readCount_le offered (freadTotal size nmemb) st.unread.length
    refine ⟨_, delivered, left, slot.trans empty, bounds.1, bounds.2, ?_⟩
    intro _ zero
    exact (readCount_eq_zero zero).symm.imp List.eq_nil_of_length_eq_zero id

end Steps

section Runs

variable (schedule : ReadSchedule)

/-- The calls that the discipline allows: a byte is pushed back only into an empty slot, and `getchar` is
for standard input. -/
def StreamDiscipline (st : InStream) : StreamCall → Prop
  | .ungetc c => 0 ≤ c ∧ c < 256 ∧ st.file.unget = -1
  | .getchar => st.file.fd = 0
  | _ => True

/-- The calls that go to the descriptor find nothing pushed back, and `fread` gets whole items. An `fread` of no items
does not go there. -/
def NoBypass (st : InStream) : StreamCall → Prop
  | .getchar => st.file.unget = -1
  | .fread size nmemb => (size = 0 ∨ nmemb = 0) ∨ st.file.unget = -1 ∧ WholeItems schedule st size nmemb
  | _ => True

def streamStep (st : InStream) (call : StreamCall) : Option InStream := some (execStream schedule st call).2

theorem streamStep_permitted_cons (allowed : InStream → StreamCall → Prop) (st : InStream) (call : StreamCall)
    (rest : List StreamCall) :
    CallRun.Permitted (streamStep schedule) allowed st (call :: rest) ↔
      allowed st call ∧
        CallRun.Permitted (streamStep schedule) allowed (execStream schedule st call).2 rest := by
  simp [CallRun.Permitted, streamStep]

/-- One call delivers the front of the logical stream and leaves the rest of it. -/
theorem execStream_advances {st : InStream} (slot : st.file.SlotValid) (call : StreamCall)
    (allowed : StreamDiscipline st call) (direct : NoBypass schedule st call) :
    Delivers schedule.Reliable st.logical call (execStream schedule st call).1 ∧
      (execStream schedule st call).2.logical =
        logicalNext st.logical call (execStream schedule st call).1 ∧
      (execStream schedule st call).2.file.SlotValid := by
  cases call with
  | getchar => exact (getchar_takes schedule direct).advances
  | fgetc => exact (fgetc_takes schedule slot).advances
  | getc => exact (fgetc_takes schedule slot).advances
  | fgets size => exact (fgets_takes schedule size slot).advances
  | fread size nmemb =>
    by_cases none_asked : size = 0 ∨ nmemb = 0
    · have total : freadTotal size nmemb = 0 := by
        rcases none_asked with rfl | rfl <;> simp [freadTotal]
      rw [fread_nothing schedule none_asked]
      exact ⟨⟨List.nil_prefix, fun _ _ => .inr total⟩, rfl, slot⟩
    obtain ⟨empty, whole⟩ := direct.resolve_left none_asked
    obtain ⟨count, delivered, left, after, fits, there, drained⟩ := fread_takes schedule none_asked empty whole
    rw [logical_of_empty empty, logical_of_empty after, delivered, left]
    refine ⟨⟨?_, ?_⟩, ?_, .inl after⟩
    · exact List.take_prefix_take_left fits
    · intro reliable nothing
      have zero : count = 0 ∨ st.unread = [] := List.take_eq_nil_iff.mp nothing
      exact zero.elim (drained reliable) .inl
    · show st.unread.drop count = st.unread.drop (st.unread.take count).length
      rw [List.length_take, Nat.min_eq_left there]
  | ungetc c =>
    obtain ⟨low, high, empty⟩ := allowed
    have notEof : c ≠ EOF := by simp only [EOF]; omega
    have pending : c ≠ -1 := by omega
    refine ⟨rfl, ?_, ?_⟩
    · simp [execStream, ungetc, notEof, logicalNext, InStream.logical, pending, empty]
    · simpa [execStream, ungetc, notEof, FILE.SlotValid] using .inr ⟨low, high⟩

/-- Every interleaving of the calls whose descriptor reads find nothing pushed back, and whose `fread` gets
whole items, delivers the bytes of the logical stream in order. -/
theorem streams_inOrder (start : InStream) (slot : start.file.SlotValid) (calls : List StreamCall)
    (permitted : CallRun.Permitted (streamStep schedule)
      (fun st call => StreamDiscipline st call ∧ NoBypass schedule st call) start calls) :
    InOrder schedule.Reliable schedule start.logical start calls := by
  induction calls generalizing start with
  | nil => exact rfl
  | cons call rest ih =>
    obtain ⟨⟨allowed, direct⟩, later⟩ := (streamStep_permitted_cons ..).mp permitted
    obtain ⟨delivers, left, kept⟩ := execStream_advances schedule slot call allowed direct
    refine ⟨delivers, ?_⟩
    rw [← left]
    exact ih _ kept later

/-- Standard input with nothing pushed back. -/
def stdinOf (unread : List Byte) : InStream := ⟨⟨0, false, false, -1⟩, unread, 0⟩

/-- A line read after its first byte was pushed back, then the bytes behind it, one at each `read`. -/
theorem streams_inOrder_line :
    InOrder (ReadSchedule.Reliable fun _ => some 1) (fun _ => some 1) [65, 10, 66, 67]
      (stdinOf [65, 10, 66, 67]) [.fgetc, .ungetc 65, .fgets 8, .getchar, .fread 1 4] := by
  refine streams_inOrder (fun _ => some 1) (stdinOf [65, 10, 66, 67]) (.inl rfl) _ ?_
  simp only [streamStep_permitted_cons]
  refine ⟨⟨trivial, trivial⟩, ⟨⟨by decide, by decide, rfl⟩, trivial⟩, ⟨trivial, trivial⟩, ⟨rfl, rfl⟩,
    ⟨trivial, .inr ⟨rfl, ?_⟩⟩, trivial⟩
  intro offered _
  exact one_dvd _

/-- A byte pushed back is overtaken by the byte that `getchar` reads. -/
theorem pushback_overtaken :
    CallRun.Permitted (streamStep fun _ => some 1) StreamDiscipline (stdinOf [66]) [.ungetc 65, .getchar] ∧
      ¬InOrder (ReadSchedule.Reliable fun _ => some 1) (fun _ => some 1) [66] (stdinOf [66])
        [.ungetc 65, .getchar] := by
  refine ⟨?_, ?_⟩
  · simp only [streamStep_permitted_cons]
    exact ⟨⟨by decide, by decide, rfl⟩, rfl, trivial⟩
  · rintro ⟨-, ⟨first, -⟩, -⟩
    exact absurd first (by decide)

end Runs

end CLite
