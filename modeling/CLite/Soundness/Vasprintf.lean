import Mathlib.Data.List.TakeWhile
import CLite.Proofs.PrintRooms

/-! # `vasprintf`

The text is first printed into an array of 1024 bytes, and the returned length should say whether it fitted.
`vsnprintf` returns what it wrote and not what it would have written, so the second pass is never taken and
a text of 1024 bytes or more is cut.
-/

namespace CLite

open ByteMemory BoundedSink

variable {malloc : ℕ → Option ℕ} {args : Arguments} {memory : Memory} {buf str cursor : ℕ}
  {format : CString} {text : List Byte} {items : List Piece}

/-- `vasprintf` stores the text with its terminator in the block and returns its length. -/
def StoresText (malloc : ℕ → Option ℕ) (args : Arguments) (memory : Memory) (buf : ℕ) (format : CString)
    (cursor : ℕ) (text : List Byte) : Prop :=
  ∃ (block : Block) (after : Memory),
    vasprintf malloc args memory buf format cursor = some ((text.length : ℤ), some block, after) ∧
    text.length < block.size ∧ (∀ k (bound : k < text.length), after (block.address + k) = text[k]) ∧
    after (block.address + text.length) = 0

/-- Allocation succeeds, with blocks outside the local array. -/
def AllocatesOutside (malloc : ℕ → Option ℕ) (buf : ℕ) : Prop :=
  ∀ size, ∃ p, malloc size = some p ∧ (p + size ≤ buf ∨ buf + 1024 ≤ p)

theorem strlen_eq {s size : ℕ} (fits : text.length < size)
    (characters : ∀ k (bound : k < text.length), memory (s + k) = text[k])
    (terminator : memory (s + text.length) = 0) :
    strlen memory s size = some (text.takeWhile (· ≠ 0)).length := by
  induction text generalizing s size with
  | nil =>
    obtain ⟨size, rfl⟩ : ∃ more, size = more + 1 := ⟨size - 1, by simp at fits; omega⟩
    rw [strlen, if_pos (by simpa using terminator)]
    rfl
  | cons x text ih =>
    obtain ⟨size, rfl⟩ : ∃ more, size = more + 1 := ⟨size - 1, by simp at fits; omega⟩
    have first : memory s = x := characters 0 (by simp)
    rw [strlen, first]
    split
    · next zero => rw [List.takeWhile_cons_of_neg (by simpa using zero), List.length_nil]
    · next nonzero =>
      have later := @ih (s + 1) size (by simpa using fits) (fun k bound => by
        have := characters (k + 1) (by simpa using bound)
        rwa [show s + (k + 1) = s + 1 + k by omega, List.getElem_cons_succ] at this) (by
        rwa [List.length_cons, show s + (text.length + 1) = s + 1 + text.length by omega] at terminator)
      rw [later, List.takeWhile_cons_of_pos (p := fun y : Byte => y ≠ 0) (decide_eq_true nonzero),
        Option.map_some, List.length_cons]

theorem strlen_terminator {s size len : ℕ} (found : strlen memory s size = some len) :
    memory (s + len) = 0 := by
  induction size generalizing s len with
  | zero => cases found
  | succ size ih =>
    rw [strlen] at found
    split at found
    · next zero =>
      cases found
      exact zero
    · obtain ⟨more, later, rfl⟩ := Option.map_eq_some_iff.mp found
      rw [show s + (more + 1) = s + 1 + more by omega]
      exact ih later

/-- Whatever is printed, the copy of the local array is what is returned. -/
theorem vasprintf_eq (memory : Memory) (nonnull : buf ≠ 0) (allocates : AllocatesOutside malloc buf)
    (laid : layout 1023 (formatPieces args format cursor) = some text) {copied : List Byte}
    (cut : copied = text.takeWhile (· ≠ 0)) :
    ∃ p after, vasprintf malloc args memory buf format cursor =
        some ((text.length : ℤ), some ⟨p, copied.length + 1⟩, after) ∧
      (∀ k (bound : k < copied.length), after (p + k) = copied[k]) ∧ after (p + copied.length) = 0 := by
  have length := layout_length laid
  have within : copied <+: text := cut ▸ List.takeWhile_prefix _
  have shorter := within.length_le
  -- the local array after the first pass
  have printed := printed_puts memory buf (show text.length < 1024 by omega)
  generalize local' : Function.update ((Sink.mk memory buf 1024).puts text).mem (buf + text.length) 0 = array
    at printed
  have first : vsnprintf args memory buf 1024 format cursor = some ((text.length : ℤ), array) := by
    rw [vsnprintf_eq_layout nonnull (by decide), laid, Option.map_some, local', int32_of_lt (by omega)]
  have measured : strlen array buf 1024 = some copied.length := by
    rw [cut]
    exact strlen_eq printed.fits printed.characters printed.terminator
  obtain ⟨p, allocated, disjoint⟩ := allocates (copied.length + 1)
  have copy (k : ℕ) (bound : k < copied.length + 1) :
      memcpy array p buf (copied.length + 1) (p + k) = array (buf + k) :=
    memcpy_inside _ _ _ _ _ bound (by omega)
  refine ⟨p, memcpy array p buf (copied.length + 1), ?_, ?_, ?_⟩
  · simp [vasprintf, first, strdup, measured, allocated, show ¬ ((text.length : ℤ) < 0) by omega,
      show (text.length : ℤ) < 1024 by omega]
  · intro k bound
    rw [copy k (by omega), printed.characters k (by omega), within.getElem bound]
  · rw [copy _ (by omega), strlen_terminator measured]

/-- Only what is in the local array is stored. -/
theorem StoresText.layout_eq (nonnull : buf ≠ 0) (allocates : AllocatesOutside malloc buf)
    (stores : StoresText malloc args memory buf format cursor text) :
    ∃ printed, layout 1023 (formatPieces args format cursor) = some printed ∧ printed.length = text.length ∧
      text.length ≤ (printed.takeWhile (· ≠ 0)).length := by
  obtain ⟨block, after, result, stored, -, -⟩ := stores
  cases first : layout 1023 (formatPieces args format cursor) with
  | none => simp [vasprintf, vsnprintf_eq_layout nonnull, first] at result
  | some printed =>
    obtain ⟨p, memory', returned, -, -⟩ := vasprintf_eq memory nonnull allocates first rfl
    rw [result] at returned
    simp only [Option.some.injEq, Prod.mk.injEq, Nat.cast_inj] at returned
    obtain ⟨length, rfl, -⟩ := returned
    exact ⟨printed, rfl, length.symm, Nat.lt_succ_iff.mp stored⟩

/-- The whole text is stored exactly when it fits the local array and has no zero byte. -/
theorem storesText_iff (nonnull : buf ≠ 0) (allocates : AllocatesOutside malloc buf) (destination : str ≠ 0)
    (produced : VsprintfText args memory str format cursor text) :
    StoresText malloc args memory buf format cursor text ↔ text.length < 1024 ∧ 0 ∉ text := by
  have local_of_short := produced.layout_of_short destination
  constructor
  · intro stores
    obtain ⟨printed, first, length, uncut⟩ := stores.layout_eq nonnull allocates
    have room := layout_length first
    have short : text.length < 1024 := by omega
    obtain rfl : printed = text := Option.some.inj (first.symm.trans (local_of_short short))
    refine ⟨short, fun zero => ?_⟩
    -- the copy ends at the first zero byte, so the block is too small for a text that has one
    have whole : printed.takeWhile (· ≠ 0) = printed :=
      (List.takeWhile_prefix _).eq_of_length_le uncut
    simpa using List.takeWhile_eq_self_iff.mp whole 0 zero
  · rintro ⟨short, nonzero⟩
    have whole : text.takeWhile (· ≠ 0) = text := by
      apply List.takeWhile_eq_self_iff.mpr
      intro x member
      exact decide_eq_true fun zero => nonzero (zero ▸ member)
    obtain ⟨p, after, result, characters, terminator⟩ :=
      vasprintf_eq memory nonnull allocates (local_of_short short) whole.symm
    exact ⟨_, after, result, Nat.lt_succ_self _, characters, terminator⟩

theorem storesText_iff_number :
    StoresText (fun _ => some 5000) (.ofWords [42]) (fun _ => 0) 100 (['<', '%', 'd', '>'].map chr) 0
      [60, 52, 50, 62] :=
  (storesText_iff (by decide) (fun _ => ⟨5000, rfl, .inr (by decide)⟩) (by decide)
    numberInText_produced).mpr (by decide)

/-- A field of 1024 characters is cut. -/
theorem wide_field_cut :
    ∃ text, VsprintfText (.ofWords [65]) (fun _ => 0) 1 (['%', '1', '0', '2', '4', 'c'].map chr) 0 text ∧
      ¬ StoresText (fun _ => some 5000) (.ofWords [65]) (fun _ => 0) 100
        (['%', '1', '0', '2', '4', 'c'].map chr) 0 text := by
  refine ⟨fieldText [65] 1024 1 false, wideField_produced, fun stores => ?_⟩
  obtain ⟨printed, first, same, -⟩ :=
    stores.layout_eq (by decide) (fun _ => ⟨5000, rfl, .inr (by decide)⟩)
  have room := layout_length first
  rw [wideField_length] at same
  omega

end CLite
