import CLite.Model.Dprintf
import CLite.Proofs.PrintRooms

/-! # What is printed to a descriptor

The text is printed into an array of 1024 bytes and sent from there, so that exactly the texts shorter than the
array are delivered whole.
-/

namespace CLite

open ByteMemory BoundedSink

variable {write : ℤ → List Byte → ℤ} {args : Arguments} {memory : Memory} {buf str cursor : ℕ} {format : CString}
  {text : List Byte}

/-- The function sends the text to its descriptor, and nothing else. -/
def Printer.Delivers (printer : Printer) (write : ℤ → List Byte → ℤ) (args : Arguments) (memory : Memory)
    (buf : ℕ) (format : CString) (cursor : ℕ) (text : List Byte) : Prop :=
  ∃ ret after, printer.call write args memory buf format cursor = some (ret, ⟨printer.fd, text⟩, after)

theorem Printer.call_eq (printer : Printer) :
    printer.call write args memory buf format cursor =
      CLite.vdprintf write args memory buf printer.fd format cursor := by
  cases printer <;> rfl

theorem memoryBytes_eq {address : ℕ} (stored : ∀ k (bound : k < text.length), memory (address + k) = text[k]) :
    memoryBytes memory address text.length = text := by
  apply List.ext_getElem
  · simp [memoryBytes]
  · intro k _ bound
    simp [memoryBytes, stored k bound]

/-- What is sent is the text as it fits into the array. -/
theorem vdprintf_eq_layout (nonnull : buf ≠ 0) {fd : ℤ} (accepts : ∀ bytes, write fd bytes = bytes.length) :
    (vdprintf write args memory buf fd format cursor).map (fun result => result.2.1) =
      (layout 1023 (formatPieces args format cursor)).map (Sent.mk fd) := by
  rw [vdprintf, vsnprintf_eq_layout nonnull (by decide)]
  cases laid : layout 1023 (formatPieces args format cursor) with
  | none => rfl
  | some printed =>
    have room := layout_length laid
    have written := printed_puts memory buf (show printed.length < 1024 by omega)
    simp only [Option.map_some, int32_of_lt (show printed.length < 2 ^ 31 by omega)]
    cases printed with
    | nil => rfl
    | cons x rest =>
      have positive : (0 : ℤ) < ((x :: rest).length : ℕ) := by
        rw [List.length_cons]
        omega
      simp only [Option.bind_eq_bind, Option.bind_some, positive, ↓reduceIte, Option.pure_def, Option.map_some,
        Int.toNat_natCast, memoryBytes_eq written.characters, accepts, List.take_length]

/-- Every one of the functions delivers the text exactly when it has less than 1024 characters. -/
theorem printer_delivers_iff (printer : Printer) (nonnull : buf ≠ 0) (destination : str ≠ 0)
    (accepts : ∀ bytes, write printer.fd bytes = bytes.length)
    (produced : VsprintfText args memory str format cursor text) :
    printer.Delivers write args memory buf format cursor text ↔ text.length < 1024 := by
  have sent := @vdprintf_eq_layout write args memory buf cursor format nonnull printer.fd accepts
  rw [Printer.Delivers, printer.call_eq]
  constructor
  · rintro ⟨ret, after, result⟩
    rw [result, Option.map_some] at sent
    obtain ⟨printed, laid, same⟩ := Option.map_eq_some_iff.mp sent.symm
    obtain rfl : printed = text := congrArg Sent.bytes same
    have room := layout_length laid
    omega
  · intro short
    rw [produced.layout_of_short destination short, Option.map_some] at sent
    obtain ⟨⟨ret, delivered, after⟩, result, same⟩ := Option.map_eq_some_iff.mp sent
    obtain rfl : delivered = ⟨printer.fd, text⟩ := same
    exact ⟨ret, after, result⟩

theorem printer_delivers_iff_number :
    Printer.printf.Delivers (fun _ bytes => bytes.length) (.ofWords [42]) (fun _ => 0) 100
      (['<', '%', 'd', '>'].map chr) 0 [60, 52, 50, 62] :=
  (printer_delivers_iff .printf (by decide) (by decide) (fun _ => rfl) numberInText_produced).mpr (by decide)

/-- `printf("%1024c", 'A')` loses its last character. -/
theorem wide_field_not_delivered :
    ∃ text, VsprintfText (.ofWords [65]) (fun _ => 0) 1 (['%', '1', '0', '2', '4', 'c'].map chr) 0 text ∧
      ¬ Printer.printf.Delivers (fun _ bytes => bytes.length) (.ofWords [65]) (fun _ => 0) 100
        (['%', '1', '0', '2', '4', 'c'].map chr) 0 text := by
  refine ⟨fieldText [65] 1024 1 false, wideField_produced, ?_⟩
  rintro ⟨ret, after, result⟩
  have sent := @vdprintf_eq_layout (fun _ bytes => bytes.length) (.ofWords [65]) (fun _ => 0) 100 0
    (['%', '1', '0', '2', '4', 'c'].map chr) (by decide) Printer.printf.fd (fun _ => rfl)
  rw [← Printer.call_eq, result, Option.map_some] at sent
  obtain ⟨printed, laid, same⟩ := Option.map_eq_some_iff.mp sent.symm
  obtain rfl : printed = fieldText [65] 1024 1 false := congrArg Sent.bytes same
  have room := layout_length laid
  rw [wideField_length] at room
  omega

end CLite
