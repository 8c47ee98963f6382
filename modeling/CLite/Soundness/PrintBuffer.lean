import CLite.Proofs.PrintFormats

/-! # The destination of `vsnprintf`

Whatever the format and the arguments, the characters emitted fit before the last byte of the destination,
the terminator follows them, and nothing else is written. The returned `int` is their number as long as an
`int` can hold it, which it always can for a destination of at most 2 GiB.
-/

namespace CLite

open ByteMemory BoundedSink

variable {args : Arguments} {memory : Memory} {str size cursor : ℕ} {format : CString}

/-- A call on a completed format without `f` emits what fits of its pieces. -/
theorem vsnprintf_destination (nonnull : str ≠ 0) (positive : 1 ≤ size)
    (completed : Completed (· ≠ chr 'f') format) :
    ∃ emitted after, layout (size - 1) (formatPieces args format cursor) = some emitted ∧
      vsnprintf args memory str size format cursor = some (int32 emitted.length, after) ∧
      Printed memory str size emitted after ∧ (size ≤ 2 ^ 31 → int32 emitted.length = emitted.length) := by
  have regular := completed.regular (fun _ notF => notF) args cursor
  obtain ⟨emitted, laid⟩ := layout_isSome regular (size - 1)
  have room := layout_length laid
  refine ⟨emitted, _, laid, ?_, printed_puts _ _ (by omega), ?_⟩
  · rw [vsnprintf_eq_layout nonnull (by omega), laid, Option.map_some]
  · intro small
    exact int32_of_lt (by omega)

theorem vsnprintf_destination_pointer :
    ∃ emitted after,
      layout (4 - 1) (formatPieces (.ofWords [7]) [chr '%', chr 'p'] 0) = some emitted ∧
        vsnprintf (.ofWords [7]) (fun _ => 1) 100 4 [chr '%', chr 'p'] 0 = some (int32 emitted.length, after) ∧
        Printed (fun _ => 1) 100 4 emitted after ∧ (4 ≤ 2 ^ 31 → int32 emitted.length = emitted.length) :=
  vsnprintf_destination (by decide) (by decide) (.directive (by decide) rfl (by decide) .nil)

/-- Two fields of 2147483647 and 1 characters. -/
def wideFormat : CString := ['%', '2', '1', '4', '7', '4', '8', '3', '6', '4', '7', 'c', '%', 'c'].map chr

theorem wideFormat_completed : Completed (· ≠ chr 'f') wideFormat :=
  .directive (by decide) rfl (by decide) (.directive (by decide) rfl (by decide) .nil)

theorem wideFormat_pieces :
    formatPieces (.ofWords [65, 66]) wideFormat 0 =
      [.text (fieldText [65] 2147483647 1 false), .text (fieldText [66] 0 1 false)] := by
  have first : readPiece (.ofWords [65, 66]) (chr '%') wideFormat.tail 0 =
      ⟨.text (fieldText [65] 2147483647 1 false), [chr '%', chr 'c'], 1⟩ := rfl
  have second : readPiece (.ofWords [65, 66]) (chr '%') [chr 'c'] 1 =
      ⟨.text (fieldText [66] 0 1 false), [], 2⟩ := rfl
  change formatPieces _ (chr '%' :: wideFormat.tail) 0 = _
  rw [formatPieces_cons, first, formatPieces_cons, second, formatPieces_nil]

theorem vsnprintf_count_wraps :
    Completed (· ≠ chr 'f') wideFormat ∧
      (vsnprintf (.ofWords [65, 66]) (fun _ => 0) 1 (2 ^ 31 + 1) wideFormat 0).map Prod.fst =
        some (-2 ^ 31) := by
  refine ⟨wideFormat_completed, ?_⟩
  have length : (fullText (formatPieces (.ofWords [65, 66]) wideFormat 0)).length = 2 ^ 31 := by
    rw [wideFormat_pieces]
    simp only [fullText, fieldText, Bool.false_eq_true, if_false, List.length_append, List.length_replicate]
    decide
  rw [vsnprintf_eq_layout (by decide) (by decide), Nat.add_sub_cancel,
    layout_of_room (wideFormat_completed.regular (fun _ notF => notF) _ 0) length.le, Option.map_map,
    Option.map_some, Function.comp_apply, length]
  decide

end CLite
