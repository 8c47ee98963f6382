import CLite.Proofs.Texts

/-! # Strings in memory are texts

A program of string calls on buffers answers as the same program does on texts, as long as the texts it makes fit into
the buffers. Each call writes into one buffer only, so the other texts stand by the frame of what it has written.
-/

namespace CLite.Text

open ByteMemory Simulation

variable {ι : Type} {layout : Layout ι} {initial memory after : Memory} {texts : Texts ι} {i j : ι} {s : CString}
  {n k : ℕ}

/-- A text in one buffer is apart from what is written into another. -/
theorem Stored.source_apart {region : Region} (start : Stored layout initial memory texts) (other : i ≠ j)
    (within : region.Within (layout.buffer i)) :
    region.Apart ⟨(layout.buffer j).base, (texts j).length + 1⟩ :=
  (layout.apart i j other).mono within ⟨Nat.le_refl _, Nat.add_le_add_left (start.short j) _⟩

theorem Stored.length_lt (start : Stored layout initial memory texts) (i : ι) : (texts i).length < addressSpace := by
  have short := start.short i
  have mapped := layout.mapped i
  omega

variable [DecidableEq ι]

/-- A write into one buffer that leaves a text in it. -/
theorem Stored.write {bytes : List Byte} {address : ℕ} (start : Stored layout initial memory texts)
    (wrote : Wrote memory after address bytes) (within : Region.Within ⟨address, bytes.length⟩ (layout.buffer i))
    (holds : Holds after (layout.buffer i).base (stored s)) (short : s.length < (layout.buffer i).size) :
    Stored layout initial after (Function.update texts i s) := by
  refine ⟨?_, ?_, ?_⟩
  · intro j
    by_cases same : j = i
    · subst same
      rwa [Function.update_self]
    · rw [Function.update_of_ne same]
      refine wrote.2.holds ?_ (start.holds j)
      rw [length_stored]
      exact start.source_apart (Ne.symm same) within
  · intro j
    by_cases same : j = i
    · subst same
      rwa [Function.update_self]
    · rw [Function.update_of_ne same]
      exact start.short j
  · intro query outside
    rw [wrote.2 query (within.outside (outside i)), start.outside query outside]

/-- A text and zeros behind it, written over the old text from some character on. -/
theorem Stored.overwrite {zeros : List Byte} (start : Stored layout initial memory texts)
    (reached : k ≤ (texts i).length) (wrote : Wrote memory after ((layout.buffer i).base + k) (stored s ++ zeros))
    (fits : k + (s.length + 1 + zeros.length) ≤ (layout.buffer i).size) :
    Stored layout initial after (Function.update texts i ((texts i).take k ++ s)) := by
  have front : ((texts i).take k).length = k := List.length_take_of_le reached
  refine start.write wrote (Region.within_add ?_) (holds_stored_append.mpr ⟨?_, ?_⟩) ?_
  · rwa [List.length_append, length_stored]
  · have old := start.holds i
    rw [← List.take_append_drop k (texts i), holds_stored_append] at old
    refine wrote.2.holds (.inr ?_) old.1
    rw [List.length_map, front]
  · rw [front]
    exact (holds_append.mp wrote.1).1
  · rw [List.length_append, front]
    omega

/-- Characters written over the beginning of a text that reaches as far. -/
theorem Stored.overlay (start : Stored layout initial memory texts)
    (wrote : Wrote memory after (layout.buffer i).base (s.map CChar.byte)) (reached : s.length ≤ (texts i).length) :
    Stored layout initial after (Function.update texts i (s ++ (texts i).drop s.length)) := by
  have short := start.short i
  refine start.write wrote ⟨Nat.le_refl _, ?_⟩ (holds_stored_append.mpr ⟨wrote.1, ?_⟩) ?_
  · simp only [List.length_map]
    omega
  · have old := start.holds i
    rw [← List.take_append_drop s.length (texts i), holds_stored_append, List.length_take_of_le reached] at old
    refine wrote.2.holds (.inl ?_) old.2
    simp only [List.length_map, Nat.le_refl]
  · rw [List.length_append, List.length_drop]
    omega

/-! ## The calls -/

/-- The loop of `strcpy` over the old text, from some character on. -/
theorem Stored.copyLoop (start : Stored layout initial memory texts) (other : i ≠ j) (reached : k ≤ (texts i).length)
    (fits : k + ((texts j).length + 1) ≤ (layout.buffer i).size) :
    ∃ after, copyLoop addressSpace memory ((layout.buffer i).base + k) (layout.buffer j).base =
        some (after, (layout.buffer i).base + k + (texts j).length) ∧
      Stored layout initial after (Function.update texts i ((texts i).take k ++ texts j)) := by
  obtain ⟨after, copied, wrote⟩ :=
    copyLoop_eq (start.holds j) (start.source_apart other (Region.within_add fits)) (start.length_lt j)
  refine ⟨after, copied, ?_⟩
  rw [← List.append_nil (stored (texts j))] at wrote
  exact start.overwrite reached wrote fits

theorem Stored.strncat (start : Stored layout initial memory texts) (other : i ≠ j)
    (fits : (texts i ++ (texts j).take n).length < (layout.buffer i).size) :
    ∃ after, strncat memory (layout.buffer i).base (layout.buffer j).base n = some ((layout.buffer i).base, after) ∧
      Stored layout initial after (Function.update texts i (texts i ++ (texts j).take n)) := by
  rw [List.length_append] at fits
  obtain ⟨copy, copied, wrote⟩ :=
    copyAtMost_eq (start.holds j) (start.source_apart other (Region.within_add (Nat.le_of_lt fits)))
  have ended := wrote.append (wrote_update copy _ 0)
  rw [List.length_map, ← List.append_nil (List.map _ _ ++ _)] at ended
  have stands := start.overwrite (Nat.le_refl _) ended fits
  rw [List.take_length] at stands
  refine ⟨_, ?_, stands⟩
  rw [Text.strncat, strlen_stored (start.holds i) (start.length_lt i)]
  simp only [Option.bind_eq_bind, Option.bind_some, copied]

/-- Zeros follow a text that is shorter than `n`; else the old text goes on. -/
theorem Stored.strncpy (start : Stored layout initial memory texts) (other : i ≠ j)
    (fits : n ≤ (layout.buffer i).size) (ends : (texts j).length < n ∨ n ≤ (texts i).length) :
    ∃ after, strncpy memory (layout.buffer i).base (layout.buffer j).base n = ((layout.buffer i).base, after) ∧
      Stored layout initial after (Function.update texts i (overlayText (texts i) (texts j) n)) := by
  have within : Region.Within ⟨(layout.buffer i).base, n⟩ (layout.buffer i) :=
    ⟨Nat.le_refl _, Nat.add_le_add_left fits _⟩
  obtain ⟨after, copied, wrote⟩ := strncpy_eq (start.holds j) (start.source_apart other within)
  refine ⟨after, copied, ?_⟩
  rw [overlayText]
  split
  · next short =>
    obtain ⟨more, rfl⟩ : ∃ more, n = (texts j).length + 1 + more := ⟨n - ((texts j).length + 1), by omega⟩
    rw [List.take_of_length_le (by omega), Nat.add_assoc, Nat.add_sub_cancel_left, Nat.add_comm 1,
      List.replicate_succ] at wrote
    have written : Wrote memory after ((layout.buffer i).base + 0) (stored (texts j) ++ List.replicate more 0) := by
      rwa [stored, List.append_assoc]
    refine start.overwrite (Nat.zero_le _) written ?_
    rw [List.length_replicate]
    omega
  · next long =>
    have taken : ((texts j).take n).length = n := List.length_take_of_le (Nat.le_of_not_lt long)
    rw [taken, Nat.sub_self, List.replicate_zero, List.append_nil] at wrote
    have stands := start.overlay wrote (by omega)
    rwa [taken] at stands

/-- One call: the buffers keep to the texts, and the reply is the one for the texts. -/
theorem stringStep_carriesOut (layout : Layout ι) (initial : Memory) :
    CarriesOut (stringStep fun i => (layout.buffer i).base) textStep (Fits layout) (Stored layout initial) := by
  intro memory texts call start fits
  have ends := start.length_lt
  cases call with
  | strcpy dest src =>
    obtain ⟨after, copied, stands⟩ := start.copyLoop (k := 0) fits.1 (Nat.zero_le _) (by have := fits.2; omega)
    refine ⟨after, ?_, stands⟩
    simp [stringStep, Text.strcpy, show copyLoop _ _ (layout.buffer dest).base _ = _ from copied, textStep,
      StringReply.ofPointer]
  | stpcpy dest src =>
    obtain ⟨after, copied, stands⟩ := start.copyLoop (k := 0) fits.1 (Nat.zero_le _) (by have := fits.2; omega)
    refine ⟨after, ?_, stands⟩
    simp [stringStep, Text.stpcpy, show copyLoop _ _ (layout.buffer dest).base _ = _ from copied, textStep,
      StringReply.ofPointer]
  | strncpy dest src n =>
    obtain ⟨after, copied, stands⟩ := start.strncpy fits.1 fits.2.1 fits.2.2
    refine ⟨after, ?_, stands⟩
    simp [stringStep, copied, textStep, StringReply.ofPointer]
  | stpncpy dest src n =>
    obtain ⟨after, copied, stands⟩ := start.strncpy fits.1 fits.2.1 fits.2.2
    refine ⟨after, ?_, stands⟩
    have source := stands.holds src
    rw [Function.update_of_ne (Ne.symm fits.1)] at source
    simp [stringStep, Text.stpncpy, copied, textStep, StringReply.ofPointer, strnlen_stored source]
  | strcat dest src =>
    have room := fits.2
    rw [List.length_append] at room
    obtain ⟨after, copied, stands⟩ := start.copyLoop fits.1 (Nat.le_refl _) room
    rw [List.take_length] at stands
    refine ⟨after, ?_, stands⟩
    simp [stringStep, Text.strcat, strlen_stored (start.holds dest) (ends dest), copied, textStep,
      StringReply.ofPointer]
  | strncat dest src n =>
    obtain ⟨after, copied, stands⟩ := start.strncat fits.1 fits.2
    refine ⟨after, ?_, stands⟩
    simp [stringStep, copied, textStep, StringReply.ofPointer]
  | strlen s =>
    refine ⟨memory, ?_, start⟩
    simp [stringStep, strlen_stored (start.holds s) (ends s), textStep]
  | strnlen s maxlen =>
    refine ⟨memory, ?_, start⟩
    simp [stringStep, strnlen_stored (start.holds s), textStep]
  | strcmp a b =>
    refine ⟨memory, ?_, start⟩
    simp [stringStep, Text.strcmp, strcmpLoop_stored (start.holds a) (start.holds b) (ends a), textStep]
  | strncmp a b n =>
    refine ⟨memory, ?_, start⟩
    simp [stringStep, strncmp_stored (start.holds a) (start.holds b), textStep]
  | strchr s c =>
    refine ⟨memory, ?_, start⟩
    simp only [stringStep, Text.strchr, strchrLoop_stored (start.holds s) (ends s), textStep]
    split <;> simp [StringReply.ofPointer]
  | strchrnul s c =>
    refine ⟨memory, ?_, start⟩
    simp [stringStep, Text.strchrnul, strchrnulLoop_stored (start.holds s) (ends s), textStep, StringReply.ofPointer]
  | strrchr s c =>
    refine ⟨memory, ?_, start⟩
    simp only [stringStep, Text.strrchr, strrchrLoop_stored (start.holds s) (ends s), textStep]
    split
    · simp [StringReply.ofPointer]
    · cases lastPlace c (texts s) <;> simp [StringReply.ofPointer]

/-- Every program of string calls returns, with the replies of the program on texts, if its texts fit into their
buffers, each copy is from another buffer, and `strncpy` and `stpncpy` leave a text. It leaves each text with its
terminator in its buffer, and nothing outside the buffers is changed. -/
theorem strings_refine (layout : Layout ι) (initial : Memory) (texts : Texts ι)
    (start : Stored layout initial initial texts) (calls : List (StringCall ι))
    (fit : Allowed textStep (Fits layout) texts calls) :
    ∃ memory, runReplies (stringStep fun i => (layout.buffer i).base) initial calls =
        some (replies textStep texts calls, memory) ∧
      Stored layout initial memory (Simulation.after textStep texts calls) :=
  (stringStep_carriesOut layout initial).run start fit

/-- Two buffers side by side. -/
def pair : Layout Bool where
  buffer i := if i then ⟨16, 4⟩ else ⟨20, 8⟩
  apart i j differ := by
    cases i <;> cases j <;> simp [Region.Apart] at differ ⊢
  mapped i := by cases i <;> simp [addressSpace]

def pairTexts : Texts Bool := fun i => if i then cstr "aa" else []

/-- The first text is in memory; everything behind it is zero. -/
def pairMemory : Memory := overlay (fun _ => 0) (List.replicate 18 97)

theorem pair_stored : Stored pair pairMemory pairMemory pairTexts where
  holds
    | true => ⟨rfl, rfl, rfl, trivial⟩
    | false => ⟨rfl, trivial⟩
  short := by decide
  outside _ _ := rfl

theorem strings_refine_pair :
    ∃ memory, runReplies (stringStep fun i => (pair.buffer i).base) pairMemory
        [.strcpy false true, .strcat false true, .strncpy false true 1, .strlen false, .strcmp false true] =
        some ([.pointer 0, .pointer 0, .pointer 0, .value 4, .value 97], memory) ∧
      Stored pair pairMemory memory (Simulation.after textStep pairTexts
        [.strcpy false true, .strcat false true, .strncpy false true 1, .strlen false, .strcmp false true]) :=
  strings_refine pair pairMemory pairTexts pair_stored _
    ⟨⟨by decide, by decide⟩, ⟨by decide, by decide⟩, ⟨by decide, by decide, by decide⟩, trivial, trivial, trivial⟩

end CLite.Text
