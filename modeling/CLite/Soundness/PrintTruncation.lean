import CLite.Proofs.PrintFormats

/-! # Truncated output

A smaller buffer should hold the first characters of what a larger one holds. Every field does so except
a pointer, which comes without its prefix when the room for it is one or two characters.
-/

namespace CLite

open ByteMemory BoundedSink

variable {args : Arguments} {memory : Memory} {str n m cursor : ℕ} {format : CString} {items : List Piece}

/-- The characters between `str` and `out` when the loop ends. -/
def printedText (args : Arguments) (memory : Memory) (str size : ℕ) (format : CString) (cursor : ℕ) :
    Option (List Byte) :=
  (printLoop args format cursor ⟨memory, str, size⟩).map fun sink =>
    (List.range (sink.out - str)).map fun k => sink.mem (str + k)

theorem printedText_eq_layout :
    printedText args memory str n format cursor = layout (n - 1) (formatPieces args format cursor) := by
  rw [printedText, printLoop_eq_layout, Option.map_map]
  cases layout (n - 1) (formatPieces args format cursor) with
  | none => rfl
  | some text =>
    simp only [Option.map_some, Function.comp_apply, Sink.puts_out, Nat.add_sub_cancel_left,
      Option.some.injEq]
    apply List.ext_getElem
    · simp
    · intro k _ bound
      rw [List.getElem_map, List.getElem_range]
      exact Sink.puts_inside bound

/-- The text with size `n` is the beginning of the text with size `m`. -/
def TruncationIsPrefix (args : Arguments) (memory : Memory) (str n m : ℕ) (format : CString) (cursor : ℕ) :
    Prop :=
  ∃ short long, printedText args memory str n format cursor = some short ∧
    printedText args memory str m format cursor = some long ∧ short = long.take (n - 1)

/-- The pointer fields among the pieces: where each starts in the full text, and its digits. -/
def pointerFields (start : ℕ) : List Piece → List (ℕ × List Byte)
  | [] => []
  | .text bytes :: rest => pointerFields (start + bytes.length) rest
  | .pointer digits :: rest => (start, digits) :: pointerFields (start + (digits.length + 2)) rest
  | .stuck :: rest => pointerFields start rest

/-- No cut through a prefix: a field that has two characters in the smaller buffer has no more in the
larger one; a field that has one has at most two there, or a digit that looks like the prefix. -/
def PrefixUncut (n m : ℕ) (field : ℕ × List Byte) : Prop :=
  (field.1 + 3 = n → m = n) ∧ (field.1 + 2 = n → m ≤ n + 1 ∨ field.2.head? = some (ascii '0'))

theorem pointerFields_start {start : ℕ} {field : ℕ × List Byte} (member : field ∈ pointerFields start items) :
    start ≤ field.1 := by
  induction items generalizing start with
  | nil => simp [pointerFields] at member
  | cons piece items ih =>
    cases piece with
    | text bytes => exact (Nat.le_add_right ..).trans (ih member)
    | pointer digits =>
      rcases List.mem_cons.mp member with rfl | member
      · exact le_refl _
      · exact (Nat.le_add_right ..).trans (ih member)
    | stuck => exact ih member

/-- Fields behind the end of the smaller buffer are not cut. -/
theorem prefixUncut_of_full {start : ℕ} (full : n - 1 ≤ start) :
    ∀ field ∈ pointerFields start items, PrefixUncut n m field := by
  intro field member
  have behind := pointerFields_start member
  refine ⟨fun cut => ?_, fun cut => ?_⟩ <;> omega

/-- A field of the same text in both rooms leaves the comparison to what follows. -/
theorem take_append_take_iff {α : Type*} {bytes short long : List α} {a b : ℕ} (order : a ≤ b) :
    bytes.take a ++ short = (bytes.take b ++ long).take a ↔ short = long.take (a - bytes.length) := by
  rw [List.take_append, List.take_take, Nat.min_eq_left order, List.length_take,
    show a - min b bytes.length = a - bytes.length by omega]
  exact List.append_right_inj _

theorem layout_cons {room : ℕ} (positive : room ≠ 0) {piece : Piece} {bytes text : List Byte}
    (has : piece.bytes room = some bytes) (laid : layout room (piece :: items) = some text) :
    ∃ rest, layout (room - bytes.length) items = some rest ∧ text = bytes.take room ++ rest := by
  rw [layout, if_neg positive, has, Option.bind_some] at laid
  obtain ⟨rest, laidRest, rfl⟩ := Option.map_eq_some_iff.mp laid
  exact ⟨rest, laidRest, rfl⟩

/-- A pointer with one or two characters in the smaller room and more in the larger one. -/
theorem cut_pointer_iff {a b : ℕ} {digits rest long : List Byte} (positive : a ≠ 0) (small : a ≤ 2) (large : 2 < b)
    (two : 2 ≤ digits.length) (noX : ascii 'x' ∉ digits) :
    digits.take a ++ [] = ((ascii '0' :: ascii 'x' :: rest).take b ++ long).take a ↔
      a = 1 ∧ digits.head? = some (ascii '0') := by
  obtain ⟨first, second, more, rfl⟩ : ∃ first second more, digits = first :: second :: more := by
    match digits, two with
    | first :: second :: more, _ => exact ⟨first, second, more, rfl⟩
  obtain ⟨c, rfl⟩ : ∃ c, b = c + 2 := ⟨b - 2, by omega⟩
  have notX : second ≠ ascii 'x' := by
    rintro rfl
    simp at noX
  rcases (show a = 1 ∨ a = 2 by omega) with rfl | rfl
  · simp
  · simp [notX]

/-- A field with one or two characters in the smaller room and more in the larger one is uncut only if it has one,
which looks like the prefix. -/
theorem prefixUncut_tight_iff {start : ℕ} {digits : List Byte} (room : start < n - 1) (tight : n - 1 - start ≤ 2)
    (large : 2 < m - 1 - start) :
    n - 1 - start = 1 ∧ digits.head? = some (ascii '0') ↔ PrefixUncut n m (start, digits) := by
  constructor
  · rintro ⟨one, zero⟩
    refine ⟨fun cut => ?_, fun _ => .inr zero⟩
    simp only at cut
    omega
  · rintro ⟨atTwo, atOne⟩
    simp only at atTwo atOne
    have one : n - 1 - start = 1 := by
      by_contra notOne
      have same := atTwo (by omega)
      omega
    exact ⟨one, (atOne (by omega)).resolve_left (by omega)⟩

theorem take_layout_iff (order : n ≤ m) (regular : ∀ piece ∈ items, piece.Regular) (start : ℕ)
    {short long : List Byte} (laidShort : layout (n - 1 - start) items = some short)
    (laidLong : layout (m - 1 - start) items = some long) :
    short = long.take (n - 1 - start) ↔ ∀ field ∈ pointerFields start items, PrefixUncut n m field := by
  induction items generalizing start short long with
  | nil =>
    cases laidShort
    cases laidLong
    simp [pointerFields]
  | cons piece items ih =>
    rw [List.forall_mem_cons] at regular
    obtain ⟨regular, later⟩ := regular
    rcases le_or_gt (n - 1) start with full | room
    · rw [Nat.sub_eq_zero_of_le full, layout_zero] at laidShort
      cases laidShort
      rw [Nat.sub_eq_zero_of_le full]
      exact iff_of_true List.take_zero.symm (prefixUncut_of_full full)
    cases piece with
    | text bytes =>
      obtain ⟨short, restShort, rfl⟩ := layout_cons (by omega) rfl laidShort
      obtain ⟨long, restLong, rfl⟩ := layout_cons (by omega) rfl laidLong
      rw [Nat.sub_sub] at restShort restLong
      rw [take_append_take_iff (by omega), Nat.sub_sub]
      exact ih later _ restShort restLong
    | pointer digits =>
      obtain ⟨two, noX⟩ := regular
      rw [pointerFields, List.forall_mem_cons]
      obtain ⟨short, restShort, rfl⟩ := layout_cons (by omega) rfl laidShort
      obtain ⟨long, restLong, rfl⟩ := layout_cons (by omega) rfl laidLong
      rcases le_or_gt (n - 1 - start) 2 with tight | roomy
      · -- the digits alone fill the smaller room
        have behind : n - 1 ≤ start + (digits.length + 2) := by omega
        rw [if_neg (by omega)] at restShort ⊢
        rw [Nat.sub_eq_zero_of_le (by omega), layout_zero] at restShort
        cases restShort
        rw [and_iff_left (prefixUncut_of_full behind)]
        rcases le_or_gt (m - 1 - start) 2 with both | large
        · rw [if_neg (by omega), take_append_take_iff (by omega), Nat.sub_eq_zero_of_le (by omega)]
          refine iff_of_true List.take_zero.symm ⟨fun cut => ?_, fun cut => ?_⟩ <;> simp only at cut <;> omega
        · rw [if_pos large, cut_pointer_iff (by omega) tight large two noX, prefixUncut_tight_iff room tight large]
      · rw [if_pos roomy] at restShort ⊢
        rw [if_pos (by omega)] at restLong ⊢
        rw [List.length_cons, List.length_cons, Nat.sub_sub] at restShort restLong
        rw [take_append_take_iff (by omega), List.length_cons, List.length_cons, Nat.sub_sub,
          ih later _ restShort restLong]
        refine (and_iff_right ⟨fun cut => ?_, fun cut => ?_⟩).symm <;> simp only at cut <;> omega
    | stuck => exact regular.elim

/-- Truncation is a prefix exactly when no pointer field is cut in its prefix. -/
theorem truncation_prefix_iff (order : n ≤ m) (completed : Completed (· ≠ chr 'f') format) :
    TruncationIsPrefix args memory str n m format cursor ↔
      ∀ field ∈ pointerFields 0 (formatPieces args format cursor), PrefixUncut n m field := by
  have regular := completed.regular (fun _ notF => notF) args cursor
  obtain ⟨short, laidShort⟩ := layout_isSome regular (n - 1)
  obtain ⟨long, laidLong⟩ := layout_isSome regular (m - 1)
  rw [← take_layout_iff order regular 0 laidShort laidLong, TruncationIsPrefix,
    printedText_eq_layout, printedText_eq_layout, laidShort, laidLong, Nat.sub_zero]
  simp

theorem truncation_prefix_iff_pointer :
    TruncationIsPrefix (.ofWords [7]) (fun _ => 0) 1 4 20 [chr '%', chr 'p'] 0 ↔
      ∀ field ∈ pointerFields 0 (formatPieces (.ofWords [7]) [chr '%', chr 'p'] 0), PrefixUncut 4 20 field :=
  truncation_prefix_iff (by decide) (.directive (by decide) rfl (by decide) .nil)

/-- With size 3 a null pointer prints as two digits, with size 20 it starts with its prefix. -/
theorem pointer_field_lost :
    ¬ TruncationIsPrefix (.ofWords [0]) (fun _ => 0) 1 3 20 [chr '%', chr 'p'] 0 := by
  have two : printedText (.ofWords [0]) (fun _ => 0) 1 3 [chr '%', chr 'p'] 0 =
      some [ascii '0', ascii '0'] := by decide +kernel
  have ten : printedText (.ofWords [0]) (fun _ => 0) 1 20 [chr '%', chr 'p'] 0 =
      some (['0', 'x', '0', '0', '0', '0', '0', '0', '0', '0'].map ascii) := by decide +kernel
  rintro ⟨short, long, printedShort, printedLong, same⟩
  rw [two] at printedShort
  rw [ten] at printedLong
  cases printedShort
  cases printedLong
  revert same
  decide

end CLite
