import CLite.Soundness.Streams
import CLite.Spec.SharedFile

/-! # Every reader follows the appended log

Whatever the interleaving and whatever openings fail, the file holds what the calls have reported as written, in their
order, and each reading stream has delivered the front of it. This rests on a kernel that keeps the laws of a regular
file; one that writes less than it was given would make `fputs` report too much.
-/

namespace CLite

open ByteMemory CallRun

variable {κ : Type} {kernel : FileKernel κ} {pathname : CString} {view : κ → FileView}

/-! ## The effect of a call on the file -/

/-- The file has grown at its end, and only this descriptor may stand somewhere else. -/
structure FileView.Grows (before : FileView) (fd : ℤ) (added : List Byte) (after : FileView) : Prop where
  contents : after.contents = before.contents ++ added
  others : ∀ other, other ≠ fd → after.opened other = before.opened other

theorem FileView.Grows.refl (view : FileView) (fd : ℤ) : view.Grows fd [] view :=
  ⟨(List.append_nil _).symm, fun _ _ => rfl⟩

theorem FileView.Grows.of_eq {before after : FileView} (fd : ℤ) (same : after = before) : before.Grows fd [] after :=
  same ▸ .refl before fd

theorem FileView.Grows.trans {first second third : FileView} {fd : ℤ} {added more : List Byte}
    (one : first.Grows fd added second) (two : second.Grows fd more third) :
    first.Grows fd (added ++ more) third := by
  refine ⟨?_, ?_⟩
  · rw [two.contents, one.contents, List.append_assoc]
  · intro other differs
    rw [two.others other differs, one.others other differs]

theorem FileView.grows_move (view : FileView) (fd : ℤ) (file : OpenFile) : view.Grows fd [] (view.move fd file) :=
  ⟨(List.append_nil _).symm, fun _ differs => Function.update_of_ne differs ..⟩

/-! ## Reading -/

/-- The byte pushed back. -/
def FILE.pushed (file : FILE) : List Byte := if file.unget = -1 then [] else [BitVec.ofInt 8 file.unget]

/-- A stream opened for reading that has these bytes still to deliver. -/
structure Reader (view : κ → FileView) (st : Stream κ) (rest : List Byte) : Prop where
  opened : ∃ offset, (view st.state).opened st.file.fd = some ⟨0, offset⟩ ∧
    offset ≤ (view st.state).contents.length ∧
    rest = st.file.pushed ++ (view st.state).contents.drop offset
  slot : st.file.SlotValid

/-- What a call delivers is the front of what the stream has still to deliver, and the rest stays. -/
structure TakesFront (view : κ → FileView) (st : Stream κ) (rest delivered : List Byte) (next : Stream κ) : Prop where
  reader : ∃ rest', rest = delivered ++ rest' ∧ Reader view next rest'
  fd : next.file.fd = st.file.fd
  grows : (view st.state).Grows st.file.fd [] (view next.state)

section Reading

variable {st : Stream κ} {rest : List Byte}

theorem TakesFront.nothing (reader : Reader view st rest) : TakesFront view st rest [] st :=
  ⟨⟨rest, rfl, reader⟩, rfl, .refl ..⟩

theorem Reader.unique {other : List Byte} (one : Reader view st rest) (two : Reader view st other) : rest = other := by
  obtain ⟨⟨offset, opened, -, rfl⟩, -⟩ := one
  obtain ⟨⟨offset', opened', -, rfl⟩, -⟩ := two
  obtain rfl : offset = offset' := by simpa using opened.symm.trans opened'
  rfl

theorem TakesFront.trans {middle next : Stream κ} {rest' delivered more : List Byte}
    (first : TakesFront view st rest delivered middle) (reader : Reader view middle rest')
    (second : TakesFront view middle rest' more next) : TakesFront view st rest (delivered ++ more) next := by
  obtain ⟨rest'', rfl, reader'⟩ := first.reader
  obtain rfl := reader.unique reader'
  obtain ⟨last, rfl, reader''⟩ := second.reader
  have grows := second.grows
  rw [first.fd] at grows
  exact ⟨⟨last, (List.append_assoc ..).symm, reader''⟩, second.fd.trans first.fd, first.grows.trans grows⟩

/-- What `read` gives is taken from the front. -/
theorem Reader.read (file : RegularFile kernel pathname view) (reader : Reader view st rest)
    (empty : st.file.unget = -1) (n : ℕ) :
    ∃ bytes k, kernel.read st.file.fd n st.state = ((bytes.length : ℤ), bytes, k) ∧ bytes.length ≤ n ∧
      (bytes = [] → n = 0 ∨ rest = []) ∧
      ∀ eof error, TakesFront view st rest bytes ⟨{ st.file with eof := eof, error := error }, k⟩ := by
  obtain ⟨⟨offset, opened, inside, rfl⟩, slot⟩ := reader
  obtain ⟨bytes, k, result, short, front, ended, moved⟩ := file.reads st.file.fd n st.state offset opened
  have none : st.file.pushed = [] := if_pos empty
  rw [none, List.nil_append]
  refine ⟨bytes, k, result, short, ended, fun eof error => ⟨⟨?_, ?_⟩, rfl, moved ▸ FileView.grows_move ..⟩⟩
  · exact (view st.state).contents.drop (offset + bytes.length)
  · have length := front.length_le
    rw [List.length_drop] at length
    refine ⟨?_, ⟨offset + bytes.length, ?_, ?_, ?_⟩, slot⟩
    · rw [← List.drop_drop]
      exact (List.prefix_iff_eq_append.mp front).symm
    · rw [moved]
      exact Function.update_self ..
    · rw [moved]
      dsimp only [FileView.move]
      omega
    · rw [moved]
      exact (List.nil_append _).symm.trans (congrArg (· ++ _) none.symm)

/-- A character is the first byte that is left; at the end of the file there is none. -/
theorem Reader.fgetc_cases (file : RegularFile kernel pathname view) (reader : Reader view st rest) :
    ∃ c next, (kernel.descriptor st.file.fd).fgetc st = (c, next) ∧
      ((∃ x : Byte, c = x.toNat ∧ TakesFront view st rest [x] next) ∨
        c = EOF ∧ rest = [] ∧ TakesFront view st rest [] next) := by
  rcases eq_or_ne st.file.unget (-1) with empty | pushed
  · obtain ⟨bytes, k, result, short, ended, takes⟩ := reader.read file empty 1
    rw [Descriptor.fgetc, if_neg (not_not_intro empty)]
    simp only [FileKernel.descriptor, result]
    rcases bytes with _ | ⟨x, bytes⟩
    · refine ⟨_, _, if_neg (by decide), .inr ⟨rfl, ?_, takes true st.file.error⟩⟩
      exact (ended rfl).resolve_left (by decide)
    · obtain rfl : bytes = [] := List.eq_nil_of_length_eq_zero (by simpa using short)
      exact ⟨_, _, if_pos rfl, .inl ⟨x, rfl, takes st.file.eof st.file.error⟩⟩
  · obtain ⟨⟨offset, opened, inside, rfl⟩, slot⟩ := reader
    obtain ⟨low, high⟩ := slot.resolve_left pushed
    refine ⟨_, _, if_pos pushed, .inl ⟨BitVec.ofInt 8 st.file.unget, (toNat_ofInt_byte low high).symm, ⟨?_, ?_⟩,
      rfl, .refl ..⟩⟩
    · exact (view st.state).contents.drop offset
    · refine ⟨?_, ⟨offset, opened, inside, ?_⟩, .inl rfl⟩
      · rw [FILE.pushed, if_neg pushed]
      · rw [FILE.pushed, if_pos rfl, List.nil_append]

theorem Reader.fgetc_reads (file : RegularFile kernel pathname view) (reader : Reader view st rest) :
    TakesFront view st rest (deliveredByte ((kernel.descriptor st.file.fd).fgetc st).1)
      ((kernel.descriptor st.file.fd).fgetc st).2 := by
  obtain ⟨c, next, result, ⟨x, rfl, takes⟩ | ⟨rfl, -, takes⟩⟩ := reader.fgetc_cases file
  · rw [result, deliveredByte_toNat]
    exact takes
  · rw [result]
    exact takes

theorem Reader.fgetsLoop_reads (file : RegularFile kernel pathname view) (reader : Reader view st rest) (room : ℕ)
    (stored : List Byte) :
    ∃ delivered, ((kernel.descriptor st.file.fd).fgetsLoop room stored st).1.getD [] = stored ++ delivered ∧
      TakesFront view st rest delivered ((kernel.descriptor st.file.fd).fgetsLoop room stored st).2 := by
  -- Each round is one `fgetc`; `stored` only grows at its end.
  induction room generalizing stored st rest with
  | zero => exact ⟨[], (List.append_nil _).symm, .nothing reader⟩
  | succ room ih =>
    obtain ⟨c, next, result, ⟨x, rfl, takes⟩ | ⟨rfl, -, takes⟩⟩ := reader.fgetc_cases file
    · have notEof : (x.toNat : ℤ) ≠ EOF := by simp only [EOF]; omega
      have stores : BitVec.ofInt 8 (x.toNat : ℤ) = x := by
        rw [BitVec.ofInt_natCast, BitVec.ofNat_toNat, BitVec.setWidth_eq]
      simp only [Descriptor.fgetsLoop, result, if_neg notEof, stores]
      split_ifs
      · exact ⟨[x], rfl, takes⟩
      · obtain ⟨rest', -, reader'⟩ := takes.reader
        obtain ⟨delivered, text, later⟩ := ih reader' (stored ++ [x])
        rw [takes.fd] at text later
        refine ⟨x :: delivered, ?_, takes.trans reader' later⟩
        rw [text, List.append_assoc]
        rfl
    · simp only [Descriptor.fgetsLoop, result, if_true]
      refine ⟨[], ?_, takes⟩
      rw [List.append_nil]
      split_ifs with nothing
      · exact nothing.symm
      · rfl

theorem Reader.fgets_reads (file : RegularFile kernel pathname view) (reader : Reader view st rest) (size : ℤ) :
    TakesFront view st rest (((kernel.descriptor st.file.fd).fgets size st).1.getD [])
      ((kernel.descriptor st.file.fd).fgets size st).2 := by
  rw [Descriptor.fgets]
  split_ifs
  · exact .nothing reader
  · obtain ⟨delivered, text, reads⟩ := reader.fgetsLoop_reads file (size - 1).toNat []
    rw [text]
    exact reads

/-- Single bytes are all delivered. -/
theorem Reader.fread_reads (file : RegularFile kernel pathname view) (reader : Reader view st rest)
    (empty : st.file.unget = -1) (nmemb : ℕ) :
    TakesFront view st rest
      (((kernel.descriptor st.file.fd).fread 1 nmemb st).2.1.take
        (((kernel.descriptor st.file.fd).fread 1 nmemb st).1 * 1))
      ((kernel.descriptor st.file.fd).fread 1 nmemb st).2.2 := by
  by_cases none_asked : (1 : ℕ) = 0 ∨ nmemb = 0
  · rw [Descriptor.fread, if_pos none_asked]
    exact .nothing reader
  · obtain ⟨bytes, k, result, -, -, takes⟩ := reader.read file empty (freadTotal 1 nmemb)
    rw [Descriptor.fread, if_neg none_asked]
    simp only [FileKernel.descriptor, result]
    rcases bytes with _ | ⟨x, bytes⟩
    · exact takes true st.file.error
    · have positive : ¬ ((x :: bytes).length : ℤ) ≤ 0 := by rw [List.length_cons]; omega
      simp only [if_neg positive, Int.toNat_natCast, Nat.div_one, Nat.mul_one, List.take_length]
      exact takes st.file.eof st.file.error

/-- A stream opened for reading is not written to, and the calls say so. -/
theorem Reader.write (file : RegularFile kernel pathname view) (reader : Reader view st rest) (bytes : List Byte) :
    ∃ k, kernel.write st.file.fd bytes st.state = (-1, k) ∧
      ∀ error, TakesFront view st rest [] ⟨{ st.file with error := error }, k⟩ := by
  obtain ⟨⟨offset, opened, inside, rfl⟩, slot⟩ := reader
  obtain ⟨k, result, same⟩ := file.writes_not st.file.fd bytes st.state offset opened
  refine ⟨k, result, fun error => ⟨⟨_, rfl, ⟨offset, ?_, ?_, ?_⟩, slot⟩, rfl, .of_eq _ same⟩⟩
  · rwa [same]
  · rwa [same]
  · rw [same]
    rfl

end Reading

/-! ## Appending -/

/-- A stream opened for appending. -/
structure Appender (view : κ → FileView) (st : Stream κ) : Prop where
  opened : ∃ offset, (view st.state).opened st.file.fd = some ⟨appendFlags, offset⟩
  empty : st.file.unget = -1

/-- A call adds bytes at the end of the file. -/
structure AddsBytes (view : κ → FileView) (st : Stream κ) (added : List Byte) (next : Stream κ) : Prop where
  appender : Appender view next
  fd : next.file.fd = st.file.fd
  grows : (view st.state).Grows st.file.fd added (view next.state)

section Appending

variable {st : Stream κ}

theorem AddsBytes.nothing (appender : Appender view st) : AddsBytes view st [] st := ⟨appender, rfl, .refl ..⟩

theorem Appender.read (file : RegularFile kernel pathname view) (appender : Appender view st) (n : ℕ) :
    ∃ k, kernel.read st.file.fd n st.state = (-1, [], k) ∧
      ∀ eof error, AddsBytes view st [] ⟨{ st.file with eof := eof, error := error }, k⟩ := by
  obtain ⟨⟨offset, opened⟩, empty⟩ := appender
  obtain ⟨k, result, same⟩ := file.reads_not st.file.fd n st.state offset opened
  exact ⟨k, result, fun eof error => ⟨⟨⟨offset, by rwa [same]⟩, empty⟩, rfl, .of_eq _ same⟩⟩

theorem Appender.fgetc (file : RegularFile kernel pathname view) (appender : Appender view st) :
    ∃ next, (kernel.descriptor st.file.fd).fgetc st = (EOF, next) ∧ AddsBytes view st [] next := by
  obtain ⟨k, result, adds⟩ := appender.read file 1
  refine ⟨⟨{ st.file with eof := true }, k⟩, ?_, adds true st.file.error⟩
  rw [Descriptor.fgetc, if_neg (not_not_intro appender.empty)]
  simp only [FileKernel.descriptor, result]
  rfl

theorem Appender.fgets (file : RegularFile kernel pathname view) (appender : Appender view st) (size : ℤ) :
    ((kernel.descriptor st.file.fd).fgets size st).1.getD [] = [] ∧
      AddsBytes view st [] ((kernel.descriptor st.file.fd).fgets size st).2 := by
  rw [Descriptor.fgets]
  split_ifs
  · exact ⟨rfl, .nothing appender⟩
  · cases (size - 1).toNat with
    | zero => exact ⟨rfl, .nothing appender⟩
    | succ room =>
      obtain ⟨next, result, adds⟩ := appender.fgetc file
      rw [Descriptor.fgetsLoop, result]
      exact ⟨rfl, adds⟩

theorem Appender.fread (file : RegularFile kernel pathname view) (appender : Appender view st) (size nmemb : ℕ) :
    ((kernel.descriptor st.file.fd).fread size nmemb st).1 = 0 ∧
      AddsBytes view st [] ((kernel.descriptor st.file.fd).fread size nmemb st).2.2 := by
  rw [Descriptor.fread]
  split_ifs
  · exact ⟨rfl, .nothing appender⟩
  · obtain ⟨k, result, adds⟩ := appender.read file (freadTotal size nmemb)
    simp only [FileKernel.descriptor, result]
    exact ⟨rfl, adds st.file.eof true⟩

/-- A write adds its bytes at the end, or fails and adds nothing. -/
theorem Appender.write (file : RegularFile kernel pathname view) (appender : Appender view st) (bytes : List Byte) :
    ∃ n k, kernel.write st.file.fd bytes st.state = (n, k) ∧
      (n = bytes.length ∧ AddsBytes view st bytes ⟨st.file, k⟩ ∨
        n = -1 ∧ ∀ error, AddsBytes view st [] ⟨{ st.file with error := error }, k⟩) := by
  obtain ⟨⟨offset, opened⟩, empty⟩ := appender
  obtain ⟨n, k, result, ⟨whole, offset', moved⟩ | ⟨failed, same⟩⟩ :=
    file.appends st.file.fd bytes st.state offset opened
  · refine ⟨n, k, result, .inl ⟨whole, ⟨⟨offset', ?_⟩, empty⟩, rfl, ?_, ?_⟩⟩
    · rw [moved]
      exact Function.update_self ..
    · rw [moved]
    · intro other differs
      rw [moved]
      exact Function.update_of_ne differs ..
  · exact ⟨n, k, result, .inr ⟨failed, fun error => ⟨⟨⟨offset, by rwa [same]⟩, empty⟩, rfl, .of_eq _ same⟩⟩⟩

theorem Appender.fputc (file : RegularFile kernel pathname view) (appender : Appender view st) (c : ℤ) :
    AddsBytes view st (deliveredByte ((kernel.descriptor st.file.fd).fputc c st).1)
      ((kernel.descriptor st.file.fd).fputc c st).2 := by
  obtain ⟨n, k, result, ⟨rfl, adds⟩ | ⟨rfl, adds⟩⟩ := appender.write file [BitVec.ofInt 8 c]
  · simp only [Descriptor.fputc, FileKernel.descriptor, result]
    rw [if_pos (by simp), deliveredByte_toNat]
    exact adds
  · simp only [Descriptor.fputc, FileKernel.descriptor, result]
    exact adds st.file.error

theorem Appender.fputs (file : RegularFile kernel pathname view) (appender : Appender view st) (text : CString) :
    AddsBytes view st
      (if ((kernel.descriptor st.file.fd).fputs text st).1 = EOF then [] else text.map CChar.byte)
      ((kernel.descriptor st.file.fd).fputs text st).2 := by
  obtain ⟨n, k, result, ⟨rfl, adds⟩ | ⟨rfl, adds⟩⟩ := appender.write file (text.map CChar.byte)
  · simp only [Descriptor.fputs, FileKernel.descriptor, result]
    rw [if_pos (Int.natCast_nonneg _)]
    exact adds
  · simp only [Descriptor.fputs, FileKernel.descriptor, result]
    exact adds st.file.error

theorem Appender.fwrite (file : RegularFile kernel pathname view) (appender : Appender view st) {ptr : List Byte}
    {size nmemb : ℕ} (counted : size * nmemb < 2 ^ 32) (there : size * nmemb ≤ ptr.length) :
    AddsBytes view st (ptr.take (((kernel.descriptor st.file.fd).fwrite ptr size nmemb st).1 * size))
      ((kernel.descriptor st.file.fd).fwrite ptr size nmemb st).2 := by
  rw [Descriptor.fwrite]
  by_cases none : size = 0 ∨ nmemb = 0
  · rw [if_pos none, Nat.zero_mul, List.take_zero]
    exact .nothing appender
  · rw [if_neg none, freadTotal, Nat.mod_eq_of_lt counted]
    have length : (ptr.take (size * nmemb)).length = size * nmemb := by
      rw [List.length_take, Nat.min_eq_left there]
    obtain ⟨n, k, result, ⟨rfl, adds⟩ | ⟨rfl, adds⟩⟩ := appender.write file (ptr.take (size * nmemb))
    · rw [length] at result
      simp only [FileKernel.descriptor, result]
      rw [if_neg (by omega)]
      dsimp only
      rw [Int.toNat_natCast, Nat.mul_div_cancel_left nmemb (by omega), Nat.mul_comm nmemb]
      exact adds
    · simp only [FileKernel.descriptor, result]
      rw [if_pos (by decide), Nat.zero_mul, List.take_zero]
      exact adds true

end Appending

/-! ## Streams on one file -/

/-- A stream opened for reading has delivered what is in front of its position, and one opened for appending has
delivered nothing. -/
def FollowsFile (view : κ → FileView) (k : κ) (s : SharingStream) : Prop :=
  s.flags = 0 ∧ (∃ rest, Reader view ⟨s.file, k⟩ rest ∧ s.received ++ rest = (view k).contents) ∨
    s.flags = appendFlags ∧ Appender view ⟨s.file, k⟩ ∧ s.received = []

/-- After a call the stream follows the file, which has grown by what the call says it has written. -/
structure Continues (view : κ → FileView) (k : κ) (s : SharingStream) (received written : List Byte)
    (st : Stream κ) : Prop where
  fd : st.file.fd = s.file.fd
  grows : (view k).Grows s.file.fd written (view st.state)
  follows : FollowsFile view st.state ⟨st.file, s.flags, received⟩

section Steps

variable {k k' : κ} {s : SharingStream}

/-- A stream on a file that has grown through another descriptor. -/
theorem FollowsFile.append (follows : FollowsFile view k s) {fd : ℤ} {written : List Byte} (other : s.file.fd ≠ fd)
    (grows : (view k).Grows fd written (view k')) : FollowsFile view k' s := by
  have same := grows.others s.file.fd other
  rcases follows with ⟨flags, rest, ⟨⟨offset, opened, inside, split⟩, slot⟩, received⟩ | ⟨flags, ⟨opened, empty⟩, none⟩
  · refine .inl ⟨flags, rest ++ written, ⟨⟨offset, same.trans opened, ?_, ?_⟩, slot⟩, ?_⟩
    · rw [grows.contents, List.length_append]
      exact Nat.le_add_right_of_le inside
    · rw [grows.contents, List.drop_append_of_le_length inside, ← List.append_assoc, ← split]
    · rw [grows.contents, ← List.append_assoc, received]
  · refine .inr ⟨flags, ⟨?_, empty⟩, none⟩
    obtain ⟨offset, opened⟩ := opened
    exact ⟨offset, same.trans opened⟩

/-- What a call delivers of a stream is added to what was delivered. -/
theorem TakesFront.continues {st : Stream κ} {rest delivered : List Byte}
    (takes : TakesFront view ⟨s.file, k⟩ rest delivered st) (flags : s.flags = 0)
    (received : s.received ++ rest = (view k).contents) :
    Continues view k s (s.received ++ delivered) [] st := by
  obtain ⟨⟨rest', rfl, reader⟩, fd, grows⟩ := takes
  refine ⟨fd, grows, .inl ⟨flags, rest', reader, ?_⟩⟩
  rw [grows.contents, List.append_nil, ← received, List.append_assoc]

theorem AddsBytes.continues {st : Stream κ} {added : List Byte} (adds : AddsBytes view ⟨s.file, k⟩ added st)
    (flags : s.flags = appendFlags) (none : s.received = []) : Continues view k s s.received added st :=
  ⟨adds.fd, adds.grows, .inr ⟨flags, adds.appender, none⟩⟩

theorem Reader.continues (file : RegularFile kernel pathname view) {rest : List Byte}
    (reader : Reader view ⟨s.file, k⟩ rest) (flags : s.flags = 0)
    (received : s.received ++ rest = (view k).contents) {op : SharingOp} (allowed : OpAllowed s op)
    {received' written : List Byte} {st : Stream κ}
    (ran : execSharing (kernel.descriptor s.file.fd) s.received ⟨s.file, k⟩ op = (received', written, st)) :
    Continues view k s received' written st := by
  cases op with
  | fgetc =>
    cases ran
    exact (reader.fgetc_reads file).continues flags received
  | fgets size =>
    cases ran
    exact (reader.fgets_reads file size).continues flags received
  | fread size nmemb =>
    obtain ⟨rfl, empty⟩ := allowed
    cases ran
    exact (reader.fread_reads file empty nmemb).continues flags received
  | ungetc c =>
    obtain ⟨low, high, empty, last⟩ := allowed
    have notEof : c ≠ EOF := by simp only [EOF]; omega
    have result : (Stream.mk s.file k).ungetc c = (c, ⟨{ s.file with unget := c, eof := false }, k⟩) :=
      if_neg notEof
    simp only [execSharing, result, if_neg notEof] at ran
    cases ran
    obtain ⟨⟨offset, opened, inside, rfl⟩, -⟩ := reader
    refine ⟨rfl, .refl .., .inl ⟨flags, _, ⟨⟨offset, opened, inside, rfl⟩, .inr ⟨low, high⟩⟩, ?_⟩⟩
    have pushed : c ≠ -1 := notEof
    rw [← List.dropLast_append_getLast? _ last] at received
    simpa [FILE.pushed, empty, pushed] using received
  | fputc c =>
    obtain ⟨k', result, takes⟩ := reader.write file [BitVec.ofInt 8 c]
    simp only [execSharing, Descriptor.fputc, FileKernel.descriptor, result] at ran
    cases ran
    simpa [deliveredByte] using (takes s.file.error).continues flags received
  | fputs text =>
    obtain ⟨k', result, takes⟩ := reader.write file (text.map CChar.byte)
    simp only [execSharing, Descriptor.fputs, FileKernel.descriptor, result] at ran
    cases ran
    simpa using (takes s.file.error).continues flags received
  | fwrite ptr size nmemb =>
    by_cases none_asked : size = 0 ∨ nmemb = 0
    · simp only [execSharing, Descriptor.fwrite, if_pos none_asked, Nat.zero_mul, List.take_zero] at ran
      cases ran
      simpa using (TakesFront.nothing reader).continues flags received
    · obtain ⟨k', result, takes⟩ := reader.write file (ptr.take (freadTotal size nmemb))
      simp only [execSharing, Descriptor.fwrite, FileKernel.descriptor, if_neg none_asked, result] at ran
      rw [if_pos (by decide), Nat.zero_mul, List.take_zero] at ran
      cases ran
      simpa using (takes true).continues flags received

theorem Appender.continues (file : RegularFile kernel pathname view) (appender : Appender view ⟨s.file, k⟩)
    (flags : s.flags = appendFlags) (none : s.received = []) {op : SharingOp} (allowed : OpAllowed s op)
    {received' written : List Byte} {st : Stream κ}
    (ran : execSharing (kernel.descriptor s.file.fd) s.received ⟨s.file, k⟩ op = (received', written, st)) :
    Continues view k s received' written st := by
  cases op with
  | fgetc =>
    obtain ⟨next, result, adds⟩ := appender.fgetc file
    simp only [execSharing, result] at ran
    cases ran
    simpa [deliveredByte] using adds.continues flags none
  | fgets size =>
    obtain ⟨nothing, adds⟩ := appender.fgets file size
    simp only [execSharing, nothing, List.append_nil] at ran
    cases ran
    exact adds.continues flags none
  | fread size nmemb =>
    obtain ⟨nothing, adds⟩ := appender.fread file size nmemb
    simp only [execSharing, nothing, Nat.zero_mul, List.take_zero, List.append_nil] at ran
    cases ran
    exact adds.continues flags none
  | ungetc c =>
    obtain ⟨-, -, -, last⟩ := allowed
    rw [none] at last
    cases last
  | fputc c =>
    cases ran
    exact (appender.fputc file c).continues flags none
  | fputs text =>
    cases ran
    exact (appender.fputs file text).continues flags none
  | fwrite ptr size nmemb =>
    cases ran
    exact (appender.fwrite file allowed.1 allowed.2).continues flags none

/-- A stream that reads reports the end of the file exactly when it has delivered all of it. -/
theorem FollowsFile.fgetc_eof_iff (file : RegularFile kernel pathname view) (follows : FollowsFile view k s)
    (reads : s.flags = 0) :
    ((kernel.descriptor s.file.fd).fgetc ⟨s.file, k⟩).1 = EOF ↔ s.received = (view k).contents := by
  rcases follows with ⟨-, rest, reader, received⟩ | ⟨flags, -⟩
  · have whole : rest = [] ↔ s.received = (view k).contents := by
      constructor
      · rintro rfl
        rwa [List.append_nil] at received
      · intro all
        rw [all] at received
        exact List.append_right_eq_self.mp received
    rw [← whole]
    obtain ⟨c, next, result, ⟨x, rfl, takes⟩ | ⟨rfl, none, -⟩⟩ := reader.fgetc_cases file
    · obtain ⟨rest', rfl, -⟩ := takes.reader
      rw [result]
      refine iff_of_false ?_ (List.cons_ne_nil _ _)
      simp only [EOF]
      omega
    · rw [result]
      exact iff_of_true rfl none
  · exact absurd (reads.symm.trans flags) (by decide)

end Steps

theorem fopenFlags_cases {mode : CString} (plain : strchr mode (chr '+').byte = none)
    (keeps : mode.head? ≠ some (chr 'w')) : fopenFlags mode = 0 ∨ fopenFlags mode = appendFlags := by
  rw [fopenFlags, plain, appendFlags]
  split_ifs <;> simp_all

/-- The file holds what it held at the start and what was written since, every stream follows it, and no two streams
share a descriptor. -/
structure LogKept (view : κ → FileView) (start : List Byte) (w : SharingWorld κ) : Prop where
  contents : (view w.kernel).contents = start ++ w.logged
  streams : ∀ s ∈ w.streams, FollowsFile view w.kernel s
  distinct : (w.streams.map fun s => s.file.fd).Nodup

theorem FollowsFile.opened {k : κ} {s : SharingStream} (follows : FollowsFile view k s) :
    (view k).opened s.file.fd ≠ none := by
  rcases follows with ⟨-, rest, ⟨⟨offset, opened, -⟩, -⟩, -⟩ | ⟨-, ⟨⟨offset, opened⟩, -⟩, -⟩
  · exact Option.ne_none_iff_exists'.mpr ⟨_, opened⟩
  · exact Option.ne_none_iff_exists'.mpr ⟨_, opened⟩

theorem followsFile_new {k k' : κ} {fd : ℤ} {flags : ℕ} (access : flags = 0 ∨ flags = appendFlags)
    (moved : view k' = (view k).move fd ⟨flags, 0⟩) : FollowsFile view k' ⟨fdopen fd, flags, []⟩ := by
  have opened : (view k').opened fd = some ⟨flags, 0⟩ := by
    rw [moved]
    exact Function.update_self ..
  rcases access with rfl | rfl
  · exact .inl ⟨rfl, (view k').contents, ⟨⟨0, opened, Nat.zero_le _, rfl⟩, .inl rfl⟩, rfl⟩
  · exact .inr ⟨rfl, ⟨⟨0, opened⟩, rfl⟩, rfl⟩

section Runs

variable {start : List Byte} {w : SharingWorld κ}

/-- The streams after an opening that has left the file alone. -/
theorem LogKept.opened (kept : LogKept view start w) {k : κ} {fd : ℤ} (grows : (view w.kernel).Grows fd [] (view k))
    (fresh : ∀ s ∈ w.streams, s.file.fd ≠ fd) : LogKept view start ⟨k, w.streams, w.logged⟩ where
  contents := by rw [grows.contents, List.append_nil, kept.contents]
  streams s member := (kept.streams s member).append (fresh s member) grows
  distinct := kept.distinct

theorem LogKept.fopen (file : RegularFile kernel pathname view) (kept : LogKept view start w) {mode : CString}
    (memory : Bool) (plain : strchr mode (chr '+').byte = none) (keeps : mode.head? ≠ some (chr 'w')) :
    ∃ next, sharingStep kernel pathname w (.fopen mode memory) = some next ∧ LogKept view start next := by
  have access := fopenFlags_cases plain keeps
  have whole : fopenFlags mode &&& O_TRUNC = 0 := by
    rcases access with none | append
    · rw [none, Nat.zero_and]
    · rw [append]
      decide
  obtain ⟨fd, k, result, ⟨failed, same⟩ | ⟨valid, unused, moved⟩⟩ :=
    file.opens (fopenFlags mode) 0o666 w.kernel whole
  · refine ⟨⟨k, w.streams, w.logged⟩, ?_, ?_⟩
    · simp [sharingStep, CLite.fopen, result, failed]
    · refine ⟨by rw [same, kept.contents], fun s member => ?_, kept.distinct⟩
      exact (kept.streams s member).append (show s.file.fd ≠ s.file.fd + 1 by omega) (.of_eq _ same)
  · have fresh : ∀ s ∈ w.streams, s.file.fd ≠ fd := by
      rintro s member rfl
      exact (kept.streams s member).opened unused
    have old := kept.opened (moved ▸ FileView.grows_move (view w.kernel) fd ⟨fopenFlags mode, 0⟩) fresh
    cases memory with
    | false =>
      exact ⟨⟨k, w.streams, w.logged⟩, by simp [sharingStep, CLite.fopen, result, not_lt.mpr valid], old⟩
    | true =>
      refine ⟨⟨k, w.streams ++ [⟨fdopen fd, fopenFlags mode, []⟩], w.logged⟩, ?_, old.contents, ?_, ?_⟩
      · simp [sharingStep, CLite.fopen, result, not_lt.mpr valid]
      · intro s member
        rcases List.mem_append.mp member with member | new
        · exact old.streams s member
        · obtain rfl := List.mem_singleton.mp new
          exact followsFile_new access moved
      · rw [List.map_append, List.map_singleton, ← List.concat_eq_append]
        refine kept.distinct.concat fun member => ?_
        obtain ⟨s, member, same⟩ := List.mem_map.mp member
        exact fresh s member same

/-- A stream after one of the list was replaced: the new one, or one on another descriptor. -/
theorem mem_set_cases {streams : List SharingStream} (distinct : (streams.map fun s => s.file.fd).Nodup) {stream : ℕ}
    {s new other : SharingStream} (found : streams[stream]? = some s) (present : other ∈ streams.set stream new) :
    other = new ∨ other ∈ streams ∧ other.file.fd ≠ s.file.fd := by
  obtain ⟨index, bound, rfl⟩ := List.mem_iff_getElem.mp present
  rw [List.length_set] at bound
  rw [List.getElem_set]
  split_ifs with same
  · exact .inl rfl
  · refine .inr ⟨List.getElem_mem bound, fun equal => same ?_⟩
    obtain ⟨bound', rfl⟩ := List.getElem?_eq_some_iff.mp found
    apply (List.getElem?_inj (show stream < (streams.map fun s => s.file.fd).length by simpa using bound') distinct).mp
    simp [bound, bound', equal]

theorem LogKept.use (file : RegularFile kernel pathname view) (kept : LogKept view start w) {stream : ℕ}
    {s : SharingStream} {op : SharingOp} (found : w.streams[stream]? = some s) (allowed : OpAllowed s op) :
    ∃ next, sharingStep kernel pathname w (.use stream op) = some next ∧ LogKept view start next := by
  have member := List.mem_of_getElem? found
  rcases ran : execSharing (kernel.descriptor s.file.fd) s.received ⟨s.file, w.kernel⟩ op with ⟨received, written, st⟩
  have continues : Continues view w.kernel s received written st := by
    rcases kept.streams s member with ⟨flags, rest, reader, delivered⟩ | ⟨flags, appender, none⟩
    · exact reader.continues file flags delivered allowed ran
    · exact appender.continues file flags none allowed ran
  obtain ⟨fd, grows, follows⟩ := continues
  refine ⟨⟨st.state, w.streams.set stream ⟨st.file, s.flags, received⟩, w.logged ++ written⟩, ?_, ?_, ?_, ?_⟩
  · simp only [sharingStep, found, Option.map_some, ran]
  · rw [grows.contents, kept.contents, List.append_assoc]
  · intro other present
    rcases mem_set_cases kept.distinct found present with rfl | ⟨old, apart⟩
    · exact follows
    · exact (kept.streams other old).append apart grows
  · obtain ⟨bound, rfl⟩ := List.getElem?_eq_some_iff.mp found
    have same : (w.streams.set stream ⟨st.file, w.streams[stream].flags, received⟩).map (fun s => s.file.fd) =
        w.streams.map fun s => s.file.fd := by
      rw [List.map_set, fd, ← List.getElem_map (fun s : SharingStream => s.file.fd)]
      exact List.set_getElem_self (by simpa using bound)
    rw [same]
    exact kept.distinct

theorem sharingStep_kept (file : RegularFile kernel pathname view) (w : SharingWorld κ) (call : SharingCall)
    (kept : LogKept view start w) (allowed : SharingDiscipline w call) :
    ∃ next, sharingStep kernel pathname w call = some next ∧ LogKept view start next := by
  cases call with
  | fopen mode memory => exact kept.fopen file memory allowed.1 allowed.2
  | use stream op =>
    obtain ⟨s, found, allowed⟩ := allowed
    exact kept.use file found allowed

end Runs

/-- Over a kernel that keeps the laws of a regular file, and whatever the interleaving of openings for reading or
appending, of which any may fail, and of calls on the streams: the file holds its first contents and then, in the order
of the calls, the bytes that they reported as written. Each stream has delivered a front part of the file, and a
reading one reports the end exactly when it has delivered everything. -/
theorem shared_file_is_a_log (file : RegularFile kernel pathname view) (k : κ) (calls : List SharingCall)
    (permitted : Permitted (sharingStep kernel pathname) SharingDiscipline (.closed k) calls) :
    ∃ final, run (sharingStep kernel pathname) (.closed k) calls = some final ∧
      (view final.kernel).contents = (view k).contents ++ final.logged ∧
      ∀ s ∈ final.streams, s.received <+: (view final.kernel).contents ∧
        (s.flags = 0 → (((kernel.descriptor s.file.fd).fgetc ⟨s.file, final.kernel⟩).1 = EOF ↔
          s.received = (view final.kernel).contents)) := by
  have initial : LogKept view (view k).contents (.closed k) := by
    refine ⟨(List.append_nil _).symm, ?_, List.nodup_nil⟩
    intro s member
    cases member
  obtain ⟨final, finished, kept⟩ := run_invariant (LogKept view (view k).contents) (sharingStep_kept file) initial
    permitted
  refine ⟨final, finished, kept.contents, ?_⟩
  intro s member
  have follows := kept.streams s member
  refine ⟨?_, follows.fgetc_eof_iff file⟩
  rcases follows with ⟨-, rest, -, received⟩ | ⟨-, -, received⟩
  · exact ⟨rest, received⟩
  · rw [received]
    exact List.nil_prefix

/-- A kernel that keeps what is seen of the file, and the next descriptor. -/
def sampleKernel : FileKernel (FileView × ℕ) where
  openFile _ flags _ k :=
    match k.1.opened k.2 with
    | none => (k.2, k.1.move k.2 ⟨flags, 0⟩, k.2 + 1)
    | some _ => (-1, k)
  read fd n k :=
    match k.1.opened fd with
    | some ⟨0, offset⟩ =>
      let bytes := (k.1.contents.drop offset).take n
      (bytes.length, bytes, k.1.move fd ⟨0, offset + bytes.length⟩, k.2)
    | _ => (-1, [], k)
  write fd bytes k :=
    match k.1.opened fd with
    | some ⟨0, _⟩ | none => (-1, k)
    | some file => (bytes.length, { k.1.move fd file with contents := k.1.contents ++ bytes }, k.2)
  lseek _ _ _ k := (-1, k)

theorem sampleKernel_regular (pathname : CString) : RegularFile sampleKernel pathname Prod.fst where
  opens flags mode k _ := by
    cases unused : k.1.opened k.2 with
    | none => exact ⟨_, _, by simp only [sampleKernel, unused]; rfl, .inr ⟨Int.natCast_nonneg _, unused, rfl⟩⟩
    | some file => exact ⟨_, _, by simp only [sampleKernel, unused]; rfl, .inl ⟨by decide, rfl⟩⟩
  reads fd n k offset opened := by
    refine ⟨_, _, by simp only [sampleKernel, opened]; rfl, List.length_take_le .., List.take_prefix .., ?_, rfl⟩
    intro none
    rwa [List.take_eq_nil_iff] at none
  reads_not fd n k offset opened := ⟨k, by simp only [sampleKernel, opened]; rfl, rfl⟩
  writes_not fd bytes k offset opened := ⟨k, by simp only [sampleKernel, opened], rfl⟩
  appends fd bytes k offset opened :=
    ⟨_, _, by simp only [sampleKernel, opened]; rfl, .inl ⟨rfl, offset, rfl⟩⟩

/-- One stream appends a byte while another one reads; there was no memory for a third one. -/
def sampleSharing : List SharingCall :=
  [.fopen [chr 'a'] true, .fopen [chr 'r'] false, .fopen [chr 'r'] true, .use 1 .fgetc, .use 0 (.fputc 105),
    .use 1 (.fgets 8), .use 1 .fgetc]

theorem shared_file_is_a_log_sample :
    ∃ final, run (sharingStep sampleKernel [chr 'f']) (.closed (⟨[72], fun _ => none⟩, 3)) sampleSharing = some final ∧
      final.kernel.1.contents = [72] ++ final.logged ∧
      ∀ s ∈ final.streams, s.received <+: final.kernel.1.contents := by
  have permitted : Permitted (sharingStep sampleKernel [chr 'f']) SharingDiscipline
      (.closed (⟨[72], fun _ => none⟩, 3)) sampleSharing := by
    refine .cons ⟨by decide, by decide⟩ rfl ?_
    refine .cons ⟨by decide, by decide⟩ rfl ?_
    refine .cons ⟨by decide, by decide⟩ rfl ?_
    refine .cons ⟨_, rfl, trivial⟩ rfl ?_
    refine .cons ⟨_, rfl, trivial⟩ rfl ?_
    refine .cons ⟨_, rfl, trivial⟩ rfl ?_
    exact .cons ⟨_, rfl, trivial⟩ rfl trivial
  obtain ⟨final, finished, contents, streams⟩ :=
    shared_file_is_a_log (sampleKernel_regular [chr 'f']) _ sampleSharing permitted
  exact ⟨final, finished, contents, fun s member => (streams s member).1⟩

end CLite
