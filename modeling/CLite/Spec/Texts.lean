import CLite.Lib.Regions
import CLite.Lib.Simulation
import CLite.Model.Texts

/-! # Texts

What the string functions are for: each buffer has a text, which calls replace, extend, compare and search.
-/

namespace CLite.Text

open ByteMemory

/-- A text as it stands in memory. -/
def stored (s : CString) : List Byte := s.map CChar.byte ++ [0]

/-- The difference of the first characters that differ, where the end counts as zero. -/
def compareTexts : CString → CString → ℤ
  | [], [] => 0
  | [], y :: _ => 0 - y.unsigned
  | x :: _, [] => x.unsigned - 0
  | x :: s, y :: t => if x = y then compareTexts s t else x.unsigned - y.unsigned

/-- The first place of a character; the terminator is behind the text. -/
def firstPlace (s : CString) (c : Byte) : ℕ := s.findIdx fun x => x.byte = c

/-- The last place of a character in the text, if it occurs. -/
def lastPlace (c : Byte) : CString → Option ℕ
  | [] => none
  | x :: s =>
    match lastPlace c s with
    | some place => some (place + 1)
    | none => if x.byte = c then some 0 else none

/-- The texts of the buffers. -/
abbrev Texts (ι : Type) := ι → CString

variable {ι : Type} [DecidableEq ι]

/-- What `strncpy` leaves: all of a text that is shorter than `n`, or else its first `n` characters in front of the
rest of the old text. -/
def overlayText (old s : CString) (n : ℕ) : CString := if s.length < n then s else s.take n ++ old.drop n

def textStep (texts : Texts ι) : StringCall ι → StringReply × Texts ι
  | .strcpy dest src => (.pointer 0, Function.update texts dest (texts src))
  | .stpcpy dest src => (.pointer (texts src).length, Function.update texts dest (texts src))
  | .strncpy dest src n => (.pointer 0, Function.update texts dest (overlayText (texts dest) (texts src) n))
  | .stpncpy dest src n =>
    (.pointer (min n (texts src).length), Function.update texts dest (overlayText (texts dest) (texts src) n))
  | .strcat dest src => (.pointer 0, Function.update texts dest (texts dest ++ texts src))
  | .strncat dest src n => (.pointer 0, Function.update texts dest (texts dest ++ (texts src).take n))
  | .strlen s => (.value (texts s).length, texts)
  | .strnlen s maxlen => (.value (min maxlen (texts s).length), texts)
  | .strcmp a b => (.value (compareTexts (texts a) (texts b)), texts)
  | .strncmp a b n => (.value (compareTexts ((texts a).take n) ((texts b).take n)), texts)
  | .strchr s c =>
    (if firstPlace (texts s) c < (texts s).length ∨ c = 0 then .pointer (firstPlace (texts s) c) else .null, texts)
  | .strchrnul s c => (.pointer (firstPlace (texts s) c), texts)
  | .strrchr s c =>
    -- the terminator is the last place of zero
    (if c = 0 then .pointer (texts s).length else .ofPointer 0 (lastPlace c (texts s)), texts)

/-- Buffers are regions of memory that are apart from each other. -/
structure Layout (ι : Type) where
  buffer : ι → Region
  apart : ∀ i j, i ≠ j → (buffer i).Apart (buffer j)
  mapped : ∀ i, (buffer i).base + (buffer i).size ≤ addressSpace

/-- A text and its terminator fit into the buffer, and a copy is from another buffer. `strncpy` of a text that is not
shorter than `n` leaves a text only if the old one reaches as far. -/
def Fits (layout : Layout ι) (texts : Texts ι) : StringCall ι → Prop
  | .strcpy dest src => dest ≠ src ∧ (texts src).length < (layout.buffer dest).size
  | .stpcpy dest src => dest ≠ src ∧ (texts src).length < (layout.buffer dest).size
  | .strncpy dest src n => dest ≠ src ∧ n ≤ (layout.buffer dest).size ∧
      ((texts src).length < n ∨ n ≤ (texts dest).length)
  | .stpncpy dest src n => dest ≠ src ∧ n ≤ (layout.buffer dest).size ∧
      ((texts src).length < n ∨ n ≤ (texts dest).length)
  | .strcat dest src => dest ≠ src ∧ (texts dest ++ texts src).length < (layout.buffer dest).size
  | .strncat dest src n => dest ≠ src ∧ (texts dest ++ (texts src).take n).length < (layout.buffer dest).size
  | _ => True

/-- The buffers have their texts, and everything outside them is as it was. -/
structure Stored (layout : Layout ι) (initial memory : Memory) (texts : Texts ι) : Prop where
  holds : ∀ i, Holds memory (layout.buffer i).base (stored (texts i))
  short : ∀ i, (texts i).length < (layout.buffer i).size
  outside : ∀ query, (∀ i, (layout.buffer i).Outside query) → memory query = initial query

end CLite.Text
