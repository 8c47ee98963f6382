import CLite.Spec.PrintPieces

/-! # The printing loop writes the layout of its pieces -/

namespace CLite

open ByteMemory BoundedSink

variable {args : Arguments} {sink : Sink Byte} {memory : Memory} {str size : ℕ}

theorem numBuf_sign (val base : ℕ) (uppercase negative : Bool) :
    numBuf val base uppercase negative =
      numBuf val base uppercase false ++ if negative then [ascii '-'] else [] := by
  simp only [numBuf, Bool.false_eq_true, if_false, List.append_nil]

/-- `format_num` offers the text of the number, wherever the room ends. -/
theorem formatNum_eq_fill (val base : ℕ) (uppercase : Bool) (width : ℤ) (pad : Byte)
    (negative leftAlign : Bool) :
    formatNum sink val base uppercase width pad negative leftAlign =
      sink.fill (numberText val base uppercase width pad negative leftAlign) := by
  simp only [formatNum, numberText, Sink.foldl_offer, Sink.offer_eq_fill, Sink.fill_fill,
    numBuf_sign val base uppercase negative]
  have used : (numBuf val base uppercase false ++ if negative then [ascii '-'] else []).length =
      ((if negative then [ascii '-'] else []) ++ (numBuf val base uppercase false).reverse).length := by
    rw [List.length_append, List.length_append, List.length_reverse, Nat.add_comm]
  rw [used]
  cases negative with
  | false => cases leftAlign <;> simp
  | true =>
    cases leftAlign with
    | true => simp
    | false =>
      by_cases zeros : pad = ascii '0' <;> simp [zeros]

theorem putField_eq_fill (text : List Byte) (width used : ℤ) (leftAlign : Bool) :
    putField sink text width used leftAlign = sink.fill (fieldText text width used leftAlign) := by
  simp only [putField, fieldText, Sink.putWhile_eq_fill, Sink.fill_fill]
  split <;> rfl

/-- What a piece does to a sink. -/
def Piece.emit (piece : Piece) (sink : Sink Byte) : Option (Sink Byte) :=
  (piece.bytes (sink.rem - 1)).map sink.fill

theorem Directive.putPointer_eq (d : Directive) :
    some (d.putPointer args sink) =
      (Piece.pointer (numberText (args.word d.cursor).toNat 16 false 8 (ascii '0') false false)).emit sink := by
  simp only [Directive.putPointer, Piece.emit, Piece.bytes, formatNum_eq_fill, Option.map_some]
  congr 1
  split
  · next room =>
    have second : 1 < (sink.put (ascii '0')).rem := by
      rw [Sink.put_rem]
      omega
    rw [if_pos (by omega), Sink.put_eq_fill second, Sink.put_eq_fill (by omega), Sink.fill_fill,
      Sink.fill_fill]
    rfl
  · next full => rw [if_neg (by omega)]

theorem Directive.putFixed_eq (d : Directive) : d.putFixed args sink = (d.fixedPiece args).emit sink := by
  unfold Directive.putFixed Directive.fixedPiece
  dsimp only
  generalize (if 0 ≤ d.precision then d.precision.toNat else 6) = prec
  cases fixedField (args.rounded (args.double d.cursor) prec) prec with
  | none => rfl
  | some text =>
    rw [Option.map_some, putField_eq_fill]
    rfl

theorem Directive.putSigned_eq (d : Directive) :
    d.putSigned args sink = sink.fill (d.signedText args) := by
  simp only [Directive.putSigned, Directive.signedText, formatNum_eq_fill]
  split <;> rfl

/-- Every conversion emits its piece and reads its words. -/
theorem Directive.convert_eq (d : Directive) (conv : CChar) :
    d.convert args conv sink =
      ((d.piece args conv).emit sink).map fun after => (after, d.cursor + Directive.reads conv) := by
  have unsigned (base : ℕ) (uppercase : Bool) :
      d.putUnsigned args base uppercase sink = sink.fill (d.unsignedText args base uppercase) :=
    formatNum_eq_fill ..
  unfold Directive.convert
  refine iteInduction (motive := (· = _)) ?_ fun notC => ?_
  · rintro rfl
    rw [Directive.putChar, putField_eq_fill]
    rfl
  refine iteInduction (motive := (· = _)) ?_ fun notS => ?_
  · rintro rfl
    rw [Directive.putString, putField_eq_fill]
    rfl
  refine iteInduction (motive := (· = _)) ?_ fun notD => ?_
  · rw [Directive.putSigned_eq]
    rintro (rfl | rfl) <;> rfl
  refine iteInduction (motive := (· = _)) ?_ fun notU => ?_
  · rintro rfl
    rw [unsigned]
    rfl
  refine iteInduction (motive := (· = _)) ?_ fun notX => ?_
  · rintro rfl
    rw [unsigned]
    rfl
  refine iteInduction (motive := (· = _)) ?_ fun notUpper => ?_
  · rintro rfl
    rw [unsigned]
    rfl
  refine iteInduction (motive := (· = _)) ?_ fun notO => ?_
  · rintro rfl
    rw [unsigned]
    rfl
  refine iteInduction (motive := (· = _)) ?_ fun notP => ?_
  · rintro rfl
    change (some (d.putPointer args sink)).map (fun after => (after, d.cursor + 1)) = _
    rw [Directive.putPointer_eq]
    rfl
  refine iteInduction (motive := (· = _)) ?_ fun notF => ?_
  · rintro rfl
    rw [Directive.putFixed_eq]
    rfl
  simp only [not_or] at notD
  simp only [Directive.piece, Directive.reads, notC, notS, notD, notU, notX, notUpper, notO, notP, notF,
    if_false, or_self, Sink.offer_eq_fill]
  rfl

/-- One round of the loop, with room left, emits one piece. -/
theorem printStep_eq {x : CChar} {format : CString} {cursor : ℕ} (room : 1 < sink.rem) :
    printStep args x format cursor sink =
      ((readPiece args x format cursor).piece.emit sink).map fun after =>
        ⟨(readPiece args x format cursor).format, (readPiece args x format cursor).cursor, after⟩ := by
  unfold printStep readPiece
  split
  · rw [Sink.put_eq_fill room]
    rfl
  · cases format with
    | nil => simp only [Piece.emit, Piece.bytes, Option.map_some, Sink.fill_nil]
    | cons y rest =>
      dsimp only
      split
      · rw [Sink.put_eq_fill room]
        rfl
      · cases (parseDirective args (y :: rest) cursor).format with
        | nil => rfl
        | cons conv rest =>
          dsimp only
          rw [Directive.convert_eq, Option.map_map]
          rfl

theorem printLoop_nil {cursor : ℕ} : printLoop args [] cursor sink = some sink := by
  rw [printLoop]

theorem printLoop_cons {x : CChar} {format : CString} {cursor : ℕ} :
    printLoop args (x :: format) cursor sink =
      if 1 < sink.rem then
        (printStep args x format cursor sink).bind fun after =>
          printLoop args after.format after.cursor after.sink
      else some sink := by
  rw [printLoop]
  split
  · cases printStep args x format cursor sink <;> rfl
  · rfl

theorem formatPieces_nil {cursor : ℕ} : formatPieces args [] cursor = [] := by rw [formatPieces]

theorem formatPieces_cons {x : CChar} {format : CString} {cursor : ℕ} :
    formatPieces args (x :: format) cursor =
      (readPiece args x format cursor).piece ::
        formatPieces args (readPiece args x format cursor).format (readPiece args x format cursor).cursor := by
  rw [formatPieces]

/-- The loop writes what fits of the pieces of the format. -/
theorem printLoop_eq_layout (format : CString) (cursor : ℕ) (sink : Sink Byte) :
    printLoop args format cursor sink =
      (layout (sink.rem - 1) (formatPieces args format cursor)).map sink.puts := by
  -- The pieces of the rest of the format are those of the reading, which is shorter.
  induction length : format.length using Nat.strong_induction_on generalizing format cursor sink with
  | _ _ shorter =>
    cases format with
    | nil => rw [printLoop_nil, formatPieces_nil, layout, Option.map_some, Sink.puts_nil]
    | cons x format =>
      rw [printLoop_cons, formatPieces_cons, layout]
      split
      · next room =>
        rw [if_neg (by omega), printStep_eq room, Piece.emit, Option.map_map]
        cases (readPiece args x format cursor).piece.bytes (sink.rem - 1) with
        | none => rfl
        | some bytes =>
          have shrinks := readPiece_length args x format cursor
          simp only [Option.map_some, Option.bind_some, Function.comp_apply]
          rw [shorter _ (by rw [← length, List.length_cons]; omega) _ _ _ rfl, Option.map_map, Sink.fill,
            Sink.puts_rem, List.length_take]
          rw [show sink.rem - min (sink.rem - 1) bytes.length - 1 = sink.rem - 1 - bytes.length by omega]
          congr 1
          funext rest
          exact Sink.puts_append.symm
      · next full => rw [if_pos (by omega), Option.map_some, Sink.puts_nil]

/-- The returned value and the memory after a call with a destination. -/
theorem vsnprintf_eq_layout {cursor : ℕ} {format : CString} (nonnull : str ≠ 0)
    (positive : size ≠ 0) :
    vsnprintf args memory str size format cursor =
      (layout (size - 1) (formatPieces args format cursor)).map fun text =>
        (int32 text.length,
          Function.update ((Sink.mk memory str size).puts text).mem (str + text.length) 0) := by
  rw [vsnprintf, if_neg (by omega), printLoop_eq_layout, Option.map_map]
  refine congrArg (Option.map · _) (funext fun text => ?_)
  simp only [Function.comp_apply, Sink.puts_out, Nat.add_sub_cancel_left]

theorem layout_zero {items : List Piece} : layout 0 items = some [] := by cases items <;> rfl

theorem layout_length {room : ℕ} {items : List Piece} {text : List Byte}
    (laid : layout room items = some text) : text.length ≤ room := by
  induction items generalizing room text with
  | nil =>
    cases laid
    exact Nat.zero_le _
  | cons piece items ih =>
    rw [layout] at laid
    split at laid
    · cases laid
      exact Nat.zero_le _
    · obtain ⟨bytes, _, laid⟩ := Option.bind_eq_some_iff.mp laid
      obtain ⟨rest, laidRest, rfl⟩ := Option.map_eq_some_iff.mp laid
      have bound := ih laidRest
      rw [List.length_append, List.length_take]
      omega

theorem int32_of_lt {n : ℕ} (small : n < 2 ^ 31) : int32 n = n := by
  rw [int32]
  apply Int.bmod_eq_of_le <;> omega

/-- A destination after a call: the characters emitted, the terminator and nothing else. -/
structure Printed (memory : Memory) (str size : ℕ) (emitted : List Byte) (after : Memory) : Prop where
  fits : emitted.length < size
  characters : ∀ k (bound : k < emitted.length), after (str + k) = emitted[k]
  terminator : after (str + emitted.length) = 0
  outside : ∀ address, address < str ∨ str + size ≤ address → after address = memory address

theorem printed_puts (memory : Memory) (str : ℕ) {text : List Byte} (fits : text.length < size) :
    Printed memory str size text
      (Function.update ((Sink.mk memory str size).puts text).mem (str + text.length) 0) where
  fits := fits
  characters k bound := by
    rw [Function.update_of_ne (by omega)]
    exact Sink.puts_inside bound
  terminator := Function.update_self ..
  outside address outside := by
    rw [Function.update_of_ne (by omega)]
    apply Sink.puts_outside
    rcases outside with before | behind
    · exact .inl before
    · exact .inr (by change str + text.length ≤ address; omega)

end CLite
