import CLite.Lib.LongestPrefix
import CLite.Soundness.PrintIntegers
import CLite.Spec.StringFields

/-! # The precision of `%s` and what is read

A precision should bound what is read of an array that has no terminator. The length of the string is taken first,
with `strlen`, so that the array is read up to its first zero whatever the precision says; only when that zero stands
below the precision are all reads below it.
-/

namespace CLite

open ByteMemory BoundedSink LongestPrefix

section Loops

variable {memory : Memory} {s len k room : ℕ}

theorem strlenFrom_succ (nonzero : memory (s + len) ≠ 0) :
    (strlenFrom s len (room + 1)).eval memory = (strlenFrom s (len + 1) room).eval memory ∧
      (strlenFrom s len (room + 1)).asked memory = (s + len) :: (strlenFrom s (len + 1) room).asked memory := by
  rw [strlenFrom, Query.eval, Query.asked, if_neg nonzero]
  exact ⟨rfl, rfl⟩

/-- As long as no zero has been found `strlen` reads on. -/
theorem mem_asked_strlenFrom (nonzero : ∀ i < k, memory (s + i) ≠ 0) (before : len ≤ k) (bound : k ≤ len + room) :
    s + k ∈ (strlenFrom s len room).asked memory := by
  induction room generalizing len with
  | zero =>
    obtain rfl : len = k := by omega
    exact List.mem_cons_self ..
  | succ room ih =>
    rcases Nat.eq_or_lt_of_le before with rfl | below
    · exact List.mem_cons_self ..
    · rw [(strlenFrom_succ (nonzero len below)).2]
      exact List.mem_cons_of_mem _ (ih below (by omega))

/-- At the first zero `strlen` returns, and it has read nothing behind it. -/
theorem strlenFrom_zero (zero : memory (s + k) = 0) (nonzero : ∀ i < k, memory (s + i) ≠ 0) (before : len ≤ k)
    (bound : k < len + room) :
    (strlenFrom s len room).eval memory = some k ∧ ∀ place ∈ (strlenFrom s len room).asked memory, place ≤ s + k := by
  induction room generalizing len with
  | zero => omega
  | succ room ih =>
    rcases Nat.eq_or_lt_of_le before with rfl | below
    · rw [strlenFrom, Query.eval, Query.asked, if_pos zero]
      refine ⟨rfl, ?_⟩
      intro place member
      rw [List.mem_singleton.mp member]
    · obtain ⟨result, later⟩ := ih below (by omega)
      obtain ⟨evals, asks⟩ := @strlenFrom_succ memory s len room (nonzero len below)
      rw [evals, asks]
      refine ⟨result, ?_⟩
      intro place member
      rcases List.mem_cons.mp member with rfl | behind
      · omega
      · exact later place behind

theorem copyFrom_eval {i : ℕ} {sink : Sink Byte} {bytes : List Byte} (holds : Holds memory (s + i) bytes) :
    (copyFrom s i bytes.length sink).eval memory = sink.putWhile bytes := by
  induction bytes generalizing i sink with
  | nil => rfl
  | cons byte bytes ih =>
    obtain ⟨rfl, rest⟩ := holds
    rw [List.length_cons, copyFrom, Sink.putWhile]
    split_ifs
    · exact ih rest
    · rfl

/-- The copy loop reads no more characters than it has to copy. -/
theorem asked_copyFrom {i count : ℕ} {sink : Sink Byte} :
    ∀ place ∈ (copyFrom s i count sink).asked memory, place < s + (i + count) := by
  induction count generalizing i sink with
  | zero =>
    intro place member
    cases member
  | succ count ih =>
    intro place member
    rw [copyFrom] at member
    split_ifs at member
    · rcases List.mem_cons.mp member with rfl | later
      · omega
      · have bound := ih place later
        omega
    · cases member

end Loops

section Calls

variable {args : Arguments} {cursor : ℕ} {sink : Sink Byte}

theorem stringField_eq_take (d : Directive) (text : CString) :
    stringField text d.precision = (text.map CChar.byte).take (d.cutLength text.length) := by
  rw [stringField, Directive.cutLength, ← List.map_take]
  congr 1
  split_ifs with precise shorter cut
  · rfl
  · rw [List.take_of_length_le (by omega), List.take_of_length_le le_rfl]
  · exact absurd cut.1 precise
  · rw [List.take_of_length_le le_rfl]

theorem cutLength_eq_length (d : Directive) (text : CString) :
    d.cutLength text.length = (stringField text d.precision).length := by
  have shorter : d.cutLength text.length ≤ text.length := by
    rw [Directive.cutLength]
    split_ifs with cut
    · exact cut.2.le
    · exact le_rfl
  rw [stringField_eq_take, List.length_take, List.length_map, Nat.min_eq_left shorter]

/-- A string in memory has its first zero at its end. -/
theorem holds_string {memory : Memory} {s : ℕ} {text : CString}
    (holds : Holds memory s (text.map CChar.byte ++ [0])) :
    memory (s + text.length) = 0 ∧ ∀ i < text.length, memory (s + i) ≠ 0 := by
  obtain ⟨characters, terminator⟩ := holds_append.mp holds
  rw [List.length_map] at terminator
  refine ⟨terminator.1, ?_⟩
  intro i bound zero
  have same := holds_iff.mp characters i (by rwa [List.length_map])
  rw [List.getElem?_map, List.getElem?_eq_getElem bound, zero] at same
  exact text[i].nonzero (Option.some.inj same)

/-- The case `'s'` read from memory does what it does with the string that stands there. -/
theorem readString_eval (d : Directive) {memory : Memory} {text : CString}
    (nonnull : args.word d.cursor ≠ 0) (string : args.text (args.word d.cursor) = text)
    (holds : Holds memory (args.word d.cursor).toNat (text.map CChar.byte ++ [0]))
    (inside : (args.word d.cursor).toNat + text.length < 2 ^ 32) :
    (d.readString args sink).eval memory = some (d.putString args sink) := by
  have nonzero : (args.word d.cursor).toNat ≠ 0 := fun zero => nonnull (BitVec.eq_of_toNat_eq zero)
  have value : args.string d.cursor = text := by rw [Arguments.string, if_neg nonnull, string]
  obtain ⟨zero, characters⟩ := holds_string holds
  have length := (strlenFrom_zero zero characters (Nat.zero_le _)
    (show text.length < 0 + (2 ^ 32 - (args.word d.cursor).toNat) by omega)).1
  have bytes : Holds memory ((args.word d.cursor).toNat + 0) (stringField text d.precision) := by
    rw [← List.take_append_drop (d.cutLength text.length) (text.map CChar.byte), List.append_assoc, holds_append,
      ← stringField_eq_take] at holds
    exact holds.1
  rw [Directive.readString, Directive.putString, putField, value]
  dsimp only
  rw [if_neg nonzero, Query.eval_bind, length]
  dsimp only
  rw [Query.eval_bind, Query.eval_pure, cutLength_eq_length, copyFrom_eval bytes]
  cases d.leftAlign <;> rfl

/-- `strlen` comes first, whatever the precision is. -/
theorem mem_asked_readString (d : Directive) {memory : Memory} {place : ℕ} (nonnull : args.word d.cursor ≠ 0)
    (asked : place ∈ (strlenFrom (args.word d.cursor).toNat 0 (2 ^ 32 - (args.word d.cursor).toNat)).asked memory) :
    place ∈ (d.readString args sink).asked memory := by
  have nonzero : (args.word d.cursor).toNat ≠ 0 := fun zero => nonnull (BitVec.eq_of_toNat_eq zero)
  rw [Directive.readString]
  dsimp only
  rw [if_neg nonzero, Query.asked_bind]
  exact List.mem_append_left _ asked

/-- Nothing is read behind the first zero. -/
theorem asked_readString_le (d : Directive) {memory : Memory} {k : ℕ} (nonnull : args.word d.cursor ≠ 0)
    (zero : memory ((args.word d.cursor).toNat + k) = 0)
    (characters : ∀ i < k, memory ((args.word d.cursor).toNat + i) ≠ 0)
    (inside : (args.word d.cursor).toNat + k < 2 ^ 32) :
    ∀ place ∈ (d.readString args sink).asked memory, place ≤ (args.word d.cursor).toNat + k := by
  have nonzero : (args.word d.cursor).toNat ≠ 0 := fun zero => nonnull (BitVec.eq_of_toNat_eq zero)
  obtain ⟨length, below⟩ := strlenFrom_zero zero characters (Nat.zero_le _)
    (show k < 0 + (2 ^ 32 - (args.word d.cursor).toNat) by omega)
  have cut : d.cutLength k ≤ k := by
    rw [Directive.cutLength]
    split_ifs with shorter
    · exact shorter.2.le
    · exact le_rfl
  rw [Directive.readString]
  dsimp only
  rw [if_neg nonzero, Query.asked_bind, length]
  dsimp only
  rw [Query.asked_bind, Query.asked_pure, List.append_nil]
  intro place member
  rcases List.mem_append.mp member with counted | copied
  · exact below place counted
  · have bound := asked_copyFrom place copied
    omega

theorem printReads_nil : printReads args [] cursor sink = [] := by rw [printReads]

/-- A directive as a format of its own reads what its conversion reads. -/
theorem printReads_directive (d : FormatDirective) (string : d.conversion = .s) :
    printReads args (chr '%' :: d.text) cursor sink =
      if 1 < sink.rem then ((parseDirective args d.text cursor).readString args sink).asked sink.mem else [] := by
  have parsed := (parseDirective_text args d [] cursor).1
  obtain ⟨y, more, shape, opened⟩ := d.text_head []
  rw [List.append_nil] at parsed shape
  rw [printReads]
  split_ifs with room
  · have step : printStepReads args (chr '%') d.text cursor sink =
        ((parseDirective args d.text cursor).readString args sink).asked sink.mem := by
      rw [shape] at parsed ⊢
      rw [printStepReads, if_neg (not_not.mpr rfl)]
      dsimp only
      rw [if_neg opened, if_pos (by rw [parsed, string]; rfl)]
    rw [step]
    split
    · rw [List.append_nil]
    next after ran =>
      have ended : after.format = [] := by
        have read := readPiece_text args d [] cursor
        rw [List.append_nil] at read
        rw [printStep_eq room, read] at ran
        obtain ⟨_, -, rfl⟩ := Option.map_eq_some_iff.mp ran
        rfl
      rw [ended, printReads_nil, List.append_nil]
  · rfl

end Calls

section Padding

/-- The number of padding characters is right exactly if it does not overflow. -/
theorem padCount_int32_iff {width k : ℕ} (word : k < 2 ^ 32) :
    padCount (int32 width) (int32 k) = width - k ↔ PaddingFits width k := by
  unfold padCount PaddingFits int32
  simp only [Int.bmod_def]
  split_ifs <;> omega

end Padding

theorem exists_text {bytes : List Byte} (nonzero : ∀ byte ∈ bytes, byte ≠ 0) :
    ∃ text : CString, text.map CChar.byte = bytes := by
  induction bytes with
  | nil => exact ⟨[], rfl⟩
  | cons byte bytes ih =>
    rw [List.forall_mem_cons] at nonzero
    obtain ⟨text, rfl⟩ := ih nonzero.2
    exact ⟨⟨byte, nonzero.1⟩ :: text, rfl⟩

/-- A destination determines the number of the characters emitted if none of them is zero. -/
theorem Printed.length_eq {memory after : Memory} {str size : ℕ} {one two : List Byte}
    (first : Printed memory str size one after) (second : Printed memory str size two after)
    (nonzero : ∀ byte ∈ one, byte ≠ 0) (nonzero' : ∀ byte ∈ two, byte ≠ 0) : one.length = two.length := by
  rcases Nat.lt_trichotomy one.length two.length with shorter | same | longer
  · have character := second.characters one.length shorter
    rw [first.terminator] at character
    exact absurd character.symm (nonzero' _ (List.getElem_mem shorter))
  · exact same
  · have character := first.characters two.length longer
    rw [second.terminator] at character
    exact absurd character.symm (nonzero _ (List.getElem_mem longer))

namespace StringCall

/-- In every destination apart from the array the call emits what fits of the field, and it reads the array only at
offsets below the precision. -/
def Bounded (call : StringCall) : Prop :=
  ∀ str size, str ≠ 0 → str + size ≤ call.address ∨ call.address + call.array.length ≤ str →
    (0 < size → ∃ count after,
      vsnprintf call.args call.memory str size call.format call.cursor = some (count, after) ∧
        Printed call.memory str size (call.field.take (size - 1)) after) ∧
    ∀ place ∈ vsnprintfReads call.args call.memory str size call.format call.cursor,
      place < call.address + call.precision


variable {call : StringCall} {k : ℕ}

theorem address_ne_zero : call.address ≠ 0 := fun zero => call.nonnull (BitVec.eq_of_toNat_eq zero)

theorem exists_firstZero {i : ℕ} (stands : call.array[i]? = some 0) : ∃ k ≤ i, call.FirstZero k := by
  have found : ∃ k : ℕ, call.array[k]? = some 0 := ⟨i, stands⟩
  exact ⟨Nat.find found, Nat.find_le stands, Nat.find_spec found, fun _ => Nat.find_min found⟩

/-- The characters before the first zero of the array are the string that the argument points to. -/
theorem FirstZero.text (first : call.FirstZero k) :
    ∃ text : CString, text.map CChar.byte = call.array.take k ∧ text.length = k ∧
      call.args.text (call.args.word (call.cursor + call.directive.stars)) = text ∧
      Holds call.memory call.address (text.map CChar.byte ++ [0]) := by
  obtain ⟨zero, before⟩ := first
  obtain ⟨bound, -⟩ := List.getElem?_eq_some_iff.mp zero
  have nonzero : ∀ byte ∈ call.array.take k, byte ≠ 0 := by
    intro byte member
    obtain ⟨i, below, rfl⟩ := List.mem_take_iff_getElem.mp member
    intro isZero
    refine before i (by omega) ?_
    rw [List.getElem?_eq_getElem (by omega), isZero]
  obtain ⟨text, bytes⟩ := exists_text nonzero
  have length : text.length = k := by
    rw [← List.length_map (f := CChar.byte), bytes, List.length_take_of_le bound.le]
  have holds : Holds call.memory call.address (text.map CChar.byte ++ [0]) := by
    have stored := call.stored
    rw [← List.take_append_drop (k + 1) call.array, holds_append, List.take_add_one, zero] at stored
    rw [bytes]
    exact stored.1
  have inside := call.inside
  refine ⟨text, bytes, length, call.read_from _ text holds ?_, holds⟩
  omega

theorem FirstZero.shown (first : call.FirstZero k) (below : k < call.precision) :
    shownBytes call.array call.precision = call.array.take k := by
  obtain ⟨text, bytes, -, -, -⟩ := first.text
  have covered := call.covered
  have split : call.array.take call.precision = call.array.take k ++ (call.array.take call.precision).drop k := by
    have parts := List.take_append_drop k (call.array.take call.precision)
    rw [List.take_take, Nat.min_eq_left below.le] at parts
    exact parts.symm
  rw [shownBytes, split]
  apply takeWhile_append_stop
  · intro byte member
    rw [← bytes] at member
    obtain ⟨c, -, rfl⟩ := List.mem_map.mp member
    simpa using c.nonzero
  · intro byte head
    rw [List.head?_drop, List.getElem?_take_of_lt below, first.1] at head
    obtain rfl := Option.some.inj head
    rfl

/-- The precision is parsed modulo 2 to the 32. -/
theorem precision_parsed : call.directive.precisionAt call.args call.cursor = int32 call.precision := by
  have given := call.has_precision
  rw [FormatDirective.HasPrecision] at given
  rw [FormatDirective.precisionAt]
  cases shape : call.directive.precision with
  | absent => simp only [shape] at given
  | star =>
    simp only [shape] at given
    have high := (call.args.word (call.cursor + if call.directive.width = .star then 1 else 0)).toInt_lt
    rw [given, int32_of_lt (by omega)]
  | number digits =>
    simp only [shape] at given
    rw [← given]
    exact numberLoop_zero digits

/-- A precision that wraps to a negative one cuts nothing off, and one that does not wrap cuts nothing off a shorter
string. -/
theorem stringField_whole {text : CString} {p : ℕ} (word : p < 2 ^ 32) (shorter : text.length ≤ p) :
    stringField text (int32 p) = text.map CChar.byte := by
  rw [stringField]
  split_ifs with precise
  · have value : int32 p = p := by
      unfold int32 at precise ⊢
      rw [Int.bmod_def] at precise ⊢
      split_ifs at precise ⊢ <;> omega
    rw [value, Int.toNat_natCast, List.take_of_length_le shorter]
  · rfl

/-- The field with the padding that the code computes. -/
def codeField (call : StringCall) (k : ℕ) : List Byte :=
  fieldText (call.array.take k) (int32 call.width) (int32 k)
    (decide (.minus ∈ call.directive.flags) || decide (call.directive.widthAt call.args call.cursor < 0))

theorem FirstZero.pieces (first : call.FirstZero k) (below : k < call.precision) :
    formatPieces call.args call.format call.cursor = [.text (call.codeField k)] := by
  obtain ⟨text, bytes, length, string, -⟩ := first.text
  obtain ⟨width, aligns⟩ := parsed_width call.directive call.args call.cursor
  have left : call.directive.width.alignsLeft call.args call.cursor =
      decide (call.directive.widthAt call.args call.cursor < 0) := by
    rw [Bool.eq_iff_iff, aligns, decide_eq_true_iff]
  have word : call.precision < 2 ^ 32 := by
    have positive := @address_ne_zero call
    have inside := call.inside
    have covered := call.covered
    rw [address] at positive
    omega
  have read := readPiece_text call.args call.directive [] call.cursor
  rw [List.append_nil, call.conversion] at read
  rw [format, formatPieces_cons, read, formatPieces_nil]
  congr 1
  change Piece.text (Directive.stringText call.args _) = _
  have options := parseDirective_options call.args call.directive [] call.cursor
  rw [List.append_nil] at options
  rw [Directive.stringText, options]
  dsimp only
  rw [Arguments.string, if_neg call.nonnull, string, precision_parsed, stringField_whole word (by omega), bytes,
    width, left, List.length_take_of_le (List.getElem?_eq_some_iff.mp first.1).1.le]
  rfl

theorem layout_text (room : ℕ) (bytes : List Byte) : layout room [.text bytes] = some (bytes.take room) := by
  rw [layout]
  split_ifs with empty
  · rw [empty, List.take_zero]
  · rw [Piece.bytes, Option.bind_some, layout, Option.map_some, List.append_nil]

/-- With a zero below the precision the call emits what fits of the field as the code pads it. -/
theorem FirstZero.printed (first : call.FirstZero k) (below : k < call.precision) {str size : ℕ} (nonnull : str ≠ 0)
    (positive : 0 < size) :
    ∃ count after, vsnprintf call.args call.memory str size call.format call.cursor = some (count, after) ∧
      Printed call.memory str size ((call.codeField k).take (size - 1)) after := by
  have fits : ((call.codeField k).take (size - 1)).length < size := by
    rw [List.length_take]
    omega
  have result := @vsnprintf_eq_layout call.args call.memory str size call.cursor call.format nonnull positive.ne'
  rw [first.pieces below, layout_text, Option.map_some] at result
  exact ⟨_, _, result, printed_puts _ _ fits⟩

theorem FirstZero.length (first : call.FirstZero k) : (call.array.take k).length = k :=
  List.length_take_of_le (List.getElem?_eq_some_iff.mp first.1).1.le

/-- The field of the characters before a zero, with the right padding on the side that the code chooses. -/
theorem FirstZero.field_eq (first : call.FirstZero k) (below : k < call.precision) :
    call.field =
      let padding := List.replicate (call.width - k) (ascii ' ')
      if (decide (.minus ∈ call.directive.flags) || decide (call.directive.widthAt call.args call.cursor < 0)) = true
      then call.array.take k ++ padding else padding ++ call.array.take k := by
  rw [field, FormatDirective.textField, first.shown below, first.length]
  simp only [Bool.or_eq_true, decide_eq_true_eq]
  rfl

theorem FirstZero.word (first : call.FirstZero k) : k < 2 ^ 32 := by
  have bound := (List.getElem?_eq_some_iff.mp first.1).1
  have inside := call.inside
  omega

theorem FirstZero.codeField_eq (first : call.FirstZero k) (below : k < call.precision)
    (fits : PaddingFits call.width k) : call.codeField k = call.field := by
  rw [codeField, fieldText, (padCount_int32_iff first.word).mpr fits, first.field_eq below]

/-- A field of the right length has the right padding. -/
theorem FirstZero.paddingFits (first : call.FirstZero k) (below : k < call.precision)
    (same : (call.codeField k).length = call.field.length) : PaddingFits call.width k := by
  have coded : (call.codeField k).length = k + padCount (int32 call.width) (int32 k) := by
    rw [codeField, fieldText]
    split_ifs <;> simp only [List.length_append, List.length_replicate, first.length]
    omega
  have right : call.field.length = k + (call.width - k) := by
    rw [first.field_eq below]
    dsimp only
    split_ifs <;> simp only [List.length_append, List.length_replicate, first.length]
    omega
  rw [← padCount_int32_iff first.word]
  omega

theorem FirstZero.nonzero (first : call.FirstZero k) (below : k < call.precision) :
    (∀ byte ∈ call.codeField k, byte ≠ 0) ∧ ∀ byte ∈ call.field, byte ≠ 0 := by
  obtain ⟨text, bytes, -, -, -⟩ := first.text
  have characters : ∀ byte ∈ call.array.take k, byte ≠ 0 := by
    intro byte member
    rw [← bytes] at member
    obtain ⟨c, -, rfl⟩ := List.mem_map.mp member
    exact c.nonzero
  have blanks : ∀ count, ∀ byte ∈ List.replicate count (ascii ' '), byte ≠ 0 := by
    intro count byte member
    rw [List.eq_of_mem_replicate member]
    decide
  rw [codeField, fieldText, first.field_eq below]
  dsimp only
  split_ifs
  · simp only [List.forall_mem_append]
    exact ⟨⟨characters, blanks _⟩, characters, blanks _⟩
  · simp only [List.forall_mem_append]
    exact ⟨⟨blanks _, characters⟩, blanks _, characters⟩

/-- The reads of a call with room for a character. -/
theorem reads_eq {str size : ℕ} (nonnull : str ≠ 0) (room : 1 < size) :
    vsnprintfReads call.args call.memory str size call.format call.cursor =
      ((parseDirective call.args call.directive.text call.cursor).readString call.args
        ⟨call.memory, str, size⟩).asked call.memory := by
  rw [vsnprintfReads, if_neg (by omega), format, printReads_directive _ call.conversion, if_pos room]

theorem cursor_parsed :
    (parseDirective call.args call.directive.text call.cursor).cursor = call.cursor + call.directive.stars := by
  have parsed := (parseDirective_text call.args call.directive [] call.cursor).2.1
  rwa [List.append_nil] at parsed

/-- What `strlen` reads is read in every call with room for a character. -/
theorem strlen_read {str size place : ℕ} (nonnull : str ≠ 0) (room : 1 < size)
    (asked : place ∈ (strlenFrom call.address 0 (2 ^ 32 - call.address)).asked call.memory) :
    place ∈ vsnprintfReads call.args call.memory str size call.format call.cursor := by
  have pointer := call.nonnull
  rw [address] at asked
  rw [← cursor_parsed] at asked pointer
  rw [reads_eq nonnull room]
  exact mem_asked_readString _ pointer asked

/-- Nothing is read behind the first zero. -/
theorem FirstZero.read_le (first : call.FirstZero k) {str size : ℕ} (nonnull : str ≠ 0) :
    ∀ place ∈ vsnprintfReads call.args call.memory str size call.format call.cursor, place ≤ call.address + k := by
  by_cases room : 1 < size
  · obtain ⟨text, -, length, -, holds⟩ := first.text
    obtain ⟨zero, characters⟩ := holds_string holds
    have pointer := call.nonnull
    have bound := (List.getElem?_eq_some_iff.mp first.1).1
    have inside : call.address + k < 2 ^ 32 := by
      have within := call.inside
      rw [address]
      omega
    rw [reads_eq nonnull room]
    rw [length] at zero characters
    rw [address, ← cursor_parsed] at zero characters inside ⊢
    rw [← cursor_parsed] at pointer
    exact asked_readString_le _ pointer zero characters inside
  · intro place read
    rw [vsnprintfReads, format, printReads_directive _ call.conversion, if_neg room, ite_self] at read
    cases read

end StringCall

/-- With a precision the array is read below it, and the field is right in every destination, exactly if the array
has its first zero below the precision and the padding does not overflow. -/
theorem string_precision_iff (call : StringCall) :
    call.Bounded ↔ ∃ k < call.precision, call.FirstZero k ∧ PaddingFits call.width k := by
  constructor
  · intro bounded
    have apart : call.address + call.array.length ≠ 0 := by
      have nonzero := @StringCall.address_ne_zero call
      omega
    have within := call.inside
    have covered := call.covered
    obtain ⟨k, below, first⟩ : ∃ k < call.precision, call.FirstZero k := by
      by_contra absent
      have nonzero : ∀ i < call.precision, call.memory (call.address + i) ≠ 0 := by
        intro i below zero
        have stands : call.array[i]? = some 0 :=
          (holds_iff.mp call.stored i (by omega)).trans (congrArg some zero)
        obtain ⟨k, bound, first⟩ := StringCall.exists_firstZero stands
        exact absent ⟨k, by omega, first⟩
      have read := mem_asked_strlenFrom nonzero (Nat.zero_le _)
        (show call.precision ≤ 0 + (2 ^ 32 - call.address) by rw [StringCall.address]; omega)
      have bound := (bounded _ 2 apart (.inr le_rfl)).2 _ (StringCall.strlen_read apart (by decide) read)
      omega
    refine ⟨k, below, first, first.paddingFits below ?_⟩
    -- a destination with room for both fields shows their lengths
    have positive : 0 < (call.codeField k).length + call.field.length + 1 := Nat.succ_pos _
    obtain ⟨count, after, result, printed⟩ := (bounded _ _ apart (.inr le_rfl)).1 positive
    obtain ⟨count', after', result', printed'⟩ := first.printed below apart positive
    obtain ⟨-, rfl⟩ : count = count' ∧ after = after' := by
      rw [result] at result'
      exact Prod.mk.inj (Option.some.inj result')
    rw [List.take_of_length_le (by omega)] at printed printed'
    obtain ⟨nonzero, nonzero'⟩ := first.nonzero below
    exact printed'.length_eq printed nonzero nonzero'
  · rintro ⟨k, below, first, fits⟩ str size nonnull -
    refine ⟨?_, ?_⟩
    · intro positive
      rw [← first.codeField_eq below fits]
      exact first.printed below nonnull positive
    · intro place read
      have bound := first.read_le nonnull place read
      omega

/-! ## An array without a terminator -/

/-- The string at an address, up to its terminator or for `room` characters. -/
def storedText (memory : Memory) (s : ℕ) : ℕ → CString
  | 0 => []
  | room + 1 => if nonzero : memory s ≠ 0 then ⟨memory s, nonzero⟩ :: storedText memory (s + 1) room else []

theorem storedText_length (memory : Memory) (s room : ℕ) : (storedText memory s room).length ≤ room := by
  induction room generalizing s with
  | zero => exact le_rfl
  | succ room ih =>
    rw [storedText]
    split_ifs
    · exact Nat.succ_le_succ (ih (s + 1))
    · exact Nat.zero_le _

theorem storedText_eq {memory : Memory} {s room : ℕ} {text : CString}
    (holds : Holds memory s (text.map CChar.byte ++ [0])) (fits : text.length ≤ room) :
    storedText memory s room = text := by
  induction text generalizing s room with
  | nil =>
    cases room with
    | zero => rfl
    | succ room => rw [storedText, dif_neg (not_not.mpr holds.1)]
  | cons c text ih =>
    obtain ⟨room, rfl⟩ : ∃ more, room = more + 1 := ⟨room - 1, by rw [List.length_cons] at fits; omega⟩
    obtain ⟨same, rest⟩ := holds
    have nonzero : memory s ≠ 0 := same ▸ c.nonzero
    rw [storedText, dif_pos nonzero, ih rest (Nat.le_of_succ_le_succ fits)]
    congr 1
    cases c
    simpa only [CChar.mk.injEq] using same

/-- Arguments given by their words, with the strings that stand in memory. -/
def Arguments.inMemory (memory : Memory) (words : List (BitVec 32)) : Arguments where
  word cursor := words.getD cursor 0
  text address := storedText memory address.toNat (2 ^ 32 - 1 - address.toNat)
  text_fits address := by
    have bound := storedText_length memory address.toNat (2 ^ 32 - 1 - address.toNat)
    omega
  rounded _ _ := ⟨false, 0, fun _ => 0⟩

theorem Arguments.inMemory_readFrom (memory : Memory) (words : List (BitVec 32)) :
    (Arguments.inMemory memory words).ReadFrom memory := by
  intro address text holds inside
  exact storedText_eq holds (by omega)

/-- `%.*s` with the precision 1 and the array that holds an `a` only; a `b` stands behind it. -/
def unterminated : StringCall where
  memory := overlay (fun _ => 0) [0, 97, 98]
  args := .inMemory (overlay (fun _ => 0) [0, 97, 98]) [1, 1]
  cursor := 0
  directive := ⟨[], .absent, .star, .none, .s⟩
  array := [97]
  precision := 1
  read_from := Arguments.inMemory_readFrom _ _
  conversion := rfl
  has_precision := rfl
  nonnull := by decide
  stored := ⟨rfl, trivial⟩
  inside := by decide
  covered := Nat.le_refl _

/-- The byte behind the array is read. -/
theorem unterminated_read_behind :
    unterminated.address + 1 ∈ vsnprintfReads unterminated.args unterminated.memory 100 8 unterminated.format 0 ∧
      ¬ unterminated.Bounded := by
  have nonzero : ∀ i < 1, unterminated.memory (unterminated.address + i) ≠ 0 := by decide
  have asked := mem_asked_strlenFrom nonzero (Nat.zero_le _)
    (show 1 ≤ 0 + (2 ^ 32 - unterminated.address) by decide)
  have read : unterminated.address + 1 ∈
      vsnprintfReads unterminated.args unterminated.memory 100 8 unterminated.format 0 :=
    StringCall.strlen_read (by decide) (by decide) asked
  refine ⟨read, ?_⟩
  intro bounded
  exact absurd ((bounded 100 8 (by decide) (.inr (by decide))).2 _ read) (by decide)

end CLite
