import CLite.Proofs.PrintFormats

/-! # Texts in a smaller room

`vsprintf` prints into a room of a mebibyte, other functions into an array of 1024 bytes. A text that is shorter
than its room is the same in every room that holds it.
-/

namespace CLite

open ByteMemory BoundedSink

variable {args : Arguments} {memory : Memory} {str cursor : ℕ} {format : CString} {text : List Byte}
  {items : List Piece}

/-- `vsprintf` leaves the text in its destination and returns its length. -/
def VsprintfText (args : Arguments) (memory : Memory) (str : ℕ) (format : CString) (cursor : ℕ)
    (text : List Byte) : Prop :=
  ∃ after, vsprintf args memory str format cursor = some ((text.length : ℤ), after) ∧
    ∀ k (bound : k < text.length), after (str + k) = text[k]

theorem Directive.piece_pointer (d : Directive) {conv : CChar} {digits : List Byte}
    (pointer : d.piece args conv = .pointer digits) : 2 ≤ digits.length := by
  rcases d.piece_yields args conv with ⟨bytes, text⟩ | eight | ⟨-, fixed⟩
  · rw [text] at pointer
    cases pointer
  · rw [eight] at pointer
    cases pointer
    exact (pointer_regular _).1
  · rw [fixed, Directive.fixedPiece] at pointer
    split at pointer <;> cases pointer

theorem readPiece_pointer {x : CChar} {digits : List Byte}
    (pointer : (readPiece args x format cursor).piece = .pointer digits) : 2 ≤ digits.length := by
  unfold readPiece at pointer
  split at pointer
  · cases pointer
  · split at pointer
    · cases pointer
    · split at pointer
      · cases pointer
      · dsimp only at pointer
        split at pointer
        · cases pointer
        · exact Directive.piece_pointer _ pointer

/-- Every pointer among the pieces of a format has its digits. -/
theorem formatPieces_pointer {digits : List Byte} (format : CString) (cursor : ℕ)
    (member : .pointer digits ∈ formatPieces args format cursor) : 2 ≤ digits.length := by
  induction length : format.length using Nat.strong_induction_on generalizing format cursor with
  | _ _ shorter =>
    cases format with
    | nil => simp [formatPieces_nil] at member
    | cons x format =>
      rw [formatPieces_cons] at member
      rcases List.mem_cons.mp member with first | later
      · exact readPiece_pointer first.symm
      · have shrinks := readPiece_length args x format cursor
        exact shorter _ (by rw [← length, List.length_cons]; omega) _ _ later rfl

/-- A text that ends before its room does is the same in every room that holds it. -/
theorem layout_of_shorter {large small : ℕ}
    (pointers : ∀ digits, Piece.pointer digits ∈ items → 2 ≤ digits.length)
    (laid : layout large items = some text) (room : text.length < large) (fits : text.length ≤ small) :
    layout small items = some text := by
  induction items generalizing large small text with
  | nil => exact laid
  | cons piece items ih =>
    rw [layout, if_neg (by omega)] at laid
    obtain ⟨bytes, has, laid⟩ := Option.bind_eq_some_iff.mp laid
    obtain ⟨rest, laidRest, rfl⟩ := Option.map_eq_some_iff.mp laid
    rw [List.length_append, List.length_take] at room fits
    rw [List.take_of_length_le (by omega)]
    have later := ih (fun digits member => pointers digits (List.mem_cons_of_mem _ member)) laidRest
      (by omega) (show rest.length ≤ small - bytes.length by omega)
    rcases Nat.eq_zero_or_pos small with rfl | positive
    · have nothing : bytes ++ rest = [] := by
        apply List.eq_nil_of_length_eq_zero
        rw [List.length_append]
        omega
      rw [layout_zero, nothing]
    have same : piece.bytes small = some bytes := by
      cases piece with
      | text bytes => exact has
      | pointer digits =>
        have two := pointers digits List.mem_cons_self
        rw [Piece.bytes] at has ⊢
        split at has
        · cases has
          rw [List.length_cons, List.length_cons] at fits
          rw [if_pos (by omega)]
        · cases has
          omega
      | stuck => cases has
    rw [layout, if_neg (by omega), same, Option.bind_some, later, Option.map_some,
      List.take_of_length_le (by omega)]

theorem vsprintfText_iff (nonnull : str ≠ 0) :
    VsprintfText args memory str format cursor text ↔
      layout 1048575 (formatPieces args format cursor) = some text := by
  rw [VsprintfText, vsprintf, vsnprintf_eq_layout nonnull (by decide)]
  constructor
  · rintro ⟨after, result, characters⟩
    obtain ⟨printed, laid, same⟩ := Option.map_eq_some_iff.mp result
    have room := layout_length laid
    rw [int32_of_lt (by omega)] at same
    simp only [Prod.mk.injEq, Nat.cast_inj] at same
    obtain ⟨length, rfl⟩ := same
    have written := printed_puts memory str (show printed.length < 1048576 by omega)
    rw [laid, List.ext_getElem length]
    intro k bound _
    rw [← written.characters k bound, characters]
  · intro laid
    have room := layout_length laid
    have written := printed_puts memory str (show text.length < 1048576 by omega)
    rw [laid, Option.map_some, int32_of_lt (by omega)]
    exact ⟨_, rfl, written.characters⟩

/-- A text of less than 1024 characters is printed whole into an array of 1024 bytes. -/
theorem VsprintfText.layout_of_short (produced : VsprintfText args memory str format cursor text)
    (destination : str ≠ 0) (short : text.length < 1024) :
    layout 1023 (formatPieces args format cursor) = some text := by
  rw [vsprintfText_iff destination] at produced
  exact layout_of_shorter (fun _ => formatPieces_pointer format cursor) produced (by omega) (by omega)

/-! ## A wide field -/

theorem wideField_length : (fieldText [65] 1024 1 false).length = 1024 := by
  simp only [fieldText, Bool.false_eq_true, if_false, List.length_append, List.length_replicate]
  decide

/-- `%1024c` is a text of 1024 characters. -/
theorem wideField_produced :
    VsprintfText (.ofWords [65]) (fun _ => 0) 1 (['%', '1', '0', '2', '4', 'c'].map chr) 0
      (fieldText [65] 1024 1 false) := by
  have only : formatPieces (.ofWords [65]) (['%', '1', '0', '2', '4', 'c'].map chr) 0 =
      [.text (fieldText [65] 1024 1 false)] := by
    have read : readPiece (.ofWords [65]) (chr '%') (['1', '0', '2', '4', 'c'].map chr) 0 =
        ⟨.text (fieldText [65] 1024 1 false), [], 1⟩ := rfl
    change formatPieces _ (chr '%' :: _) 0 = _
    rw [formatPieces_cons, read, formatPieces_nil]
  have whole : fullText [.text (fieldText [65] 1024 1 false)] = fieldText [65] 1024 1 false :=
    List.append_nil _
  rw [vsprintfText_iff (by decide), only,
    layout_of_room (by simp [Piece.Regular]) (by rw [whole, wideField_length]; decide), whole]

/-! ## A short text -/

/-- `<%d>` with the argument 42 is `<42>`. -/
theorem numberInText_produced :
    VsprintfText (.ofWords [42]) (fun _ => 0) 1 (['<', '%', 'd', '>'].map chr) 0 [60, 52, 50, 62] :=
  (vsprintfText_iff (by decide)).mpr (by decide +kernel)

end CLite
