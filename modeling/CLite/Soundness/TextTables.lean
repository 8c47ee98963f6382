import CLite.Proofs.Texts
import CLite.Soundness.Bsearch
import CLite.Soundness.Substrings

/-! # Tables of texts

A table of pointers to texts is sorted and searched with a comparison that follows the pointers and calls `strcmp`.
The records of the table do not decide such a comparison. But `qsort` writes into the table only, so that each of its
calls sees the texts of the start, and it runs as if the texts were compared themselves.
-/

namespace CLite

open ByteMemory Rearrangement Text

section Coincides

variable {σ : Type} {compar compar' : Compar σ} {size base nmemb : ℕ} {Inv : Memory → Prop}

/-- The comparisons agree on the elements of the array in every memory that exchanges of elements lead to. -/
structure Coincides (compar compar' : Compar σ) (size base nmemb : ℕ) (Inv : Memory → Prop) : Prop where
  same : ∀ state memory, Inv memory → ∀ i < nmemb, ∀ j < nmemb,
    compar state memory (base + i * size) (base + j * size) = compar' state memory (base + i * size) (base + j * size)
  exchange : ∀ memory, Inv memory → ∀ i < nmemb, ∀ j < nmemb,
    Inv (swap memory (base + i * size) (base + j * size) size)

theorem Coincides.partitionLoop_eq (coincides : Coincides compar compar' size base nmemb Inv) {memory : Memory}
    (start : Inv memory) (state : σ) {lo last j : ℕ} (pivot : last < nmemb) (within : lo + j ≤ nmemb) :
    partitionLoop compar (base + lo * size) size (base + last * size) memory state j =
        partitionLoop compar' (base + lo * size) size (base + last * size) memory state j ∧
      Inv (partitionLoop compar' (base + lo * size) size (base + last * size) memory state j).2.1 := by
  induction j with
  | zero => exact ⟨rfl, start⟩
  | succ j ih =>
    obtain ⟨same, kept⟩ := ih (by omega)
    obtain ⟨i, middle, s, before⟩ : ∃ i middle s, partitionLoop compar' (base + lo * size) size
        (base + last * size) memory state j = (i, middle, s) := ⟨_, _, _, rfl⟩
    have bound := partitionLoop_le before
    rw [before] at same kept
    simp only [partitionLoop, same, before, address_add, coincides.same s middle kept (lo + j) (by omega) last pivot,
      true_and]
    split
    · exact coincides.exchange middle kept (lo + i) (by omega) (lo + j) (by omega)
    · exact kept

/-- `qsort` runs in the same way with both comparisons. -/
theorem Coincides.qsort_eq (coincides : Coincides compar compar' size base nmemb Inv) {memory : Memory}
    (start : Inv memory) (state : σ) {lo n : ℕ} (within : lo + n ≤ nmemb) :
    qsort compar size (base + lo * size) n memory state = qsort compar' size (base + lo * size) n memory state ∧
      Inv (qsort compar' size (base + lo * size) n memory state).1 := by
  induction n using Nat.strong_induction_on generalizing lo memory state with
  | _ n ih =>
    by_cases long : n < 2
    · rw [qsort_short _ _ _ long, qsort_short _ _ _ long]
      exact ⟨rfl, start⟩
    by_cases positive : size = 0
    · rw [qsort, qsort, if_pos (.inr positive), if_pos (.inr positive)]
      exact ⟨rfl, start⟩
    obtain ⟨i, memory', state', scanned⟩ : ∃ i memory' state', partitionLoop compar' (base + lo * size) size
        (base + lo * size + (n - 1) * size) memory state (n - 1) = (i, memory', state') := ⟨_, _, _, rfl⟩
    have bound := partitionLoop_le scanned
    obtain ⟨same, kept⟩ := coincides.partitionLoop_eq start state (show lo + (n - 1) < nmemb by omega)
      (show lo + (n - 1) ≤ nmemb by omega)
    rw [← address_add, scanned] at same kept
    obtain ⟨left', sorted', whole'⟩ := qsort_step long positive scanned
    obtain ⟨left, sorted, whole⟩ := qsort_step long positive same
    rw [address_add, address_add] at sorted sorted'
    -- both runs go on from the memory in which the pivot stands between the parts
    have exchanged := coincides.exchange memory' kept (lo + i) (by omega) (lo + (n - 1)) (by omega)
    obtain ⟨first, between⟩ := ih i (by omega) exchanged state' (show lo + i ≤ nmemb by omega)
    rw [sorted, sorted'] at first
    rw [sorted'] at between
    subst first
    rw [whole, whole', address_add]
    exact ih (n - i - 1) (by omega) between left.2 (by omega)

end Coincides

/-! ## The order of texts -/

section Order

variable {s t u : CString}

theorem compareTexts_flip (s t : CString) : compareTexts t s = -compareTexts s t := by
  induction s generalizing t with
  | nil => cases t <;> simp [compareTexts]
  | cons x s ih =>
    cases t with
    | nil => simp [compareTexts]
    | cons y t =>
      rw [compareTexts, compareTexts]
      by_cases same : x = y
      · rw [if_pos same.symm, if_pos same, ih]
      · rw [if_neg (Ne.symm same), if_neg same]
        omega

theorem compareTexts_eq_zero : compareTexts s t = 0 ↔ s = t := by
  induction s generalizing t with
  | nil =>
    cases t with
    | nil => simp [compareTexts]
    | cons y t =>
      have positive := unsigned_pos y
      simp only [compareTexts, reduceCtorEq, iff_false]
      omega
  | cons x s ih =>
    cases t with
    | nil =>
      have positive := unsigned_pos x
      simp only [compareTexts, reduceCtorEq, iff_false]
      omega
    | cons y t =>
      rw [compareTexts, List.cons.injEq]
      by_cases same : x = y
      · rw [if_pos same, ih]
        exact (and_iff_right same).symm
      · have differ := CChar.unsigned_injective.ne same
        rw [if_neg same]
        exact ⟨fun zero => absurd (by omega) differ, fun both => absurd both.1 same⟩

theorem compareTexts_trans (first : compareTexts s t ≤ 0) (second : compareTexts t u ≤ 0) :
    compareTexts s u ≤ 0 := by
  induction s generalizing t u with
  | nil =>
    cases u with
    | nil => exact Int.le_refl 0
    | cons z u =>
      have positive := unsigned_pos z
      simp only [compareTexts]
      omega
  | cons x s ih =>
    have positive := unsigned_pos x
    cases t with
    | nil =>
      simp only [compareTexts] at first
      omega
    | cons y t =>
      have positive' := unsigned_pos y
      cases u with
      | nil =>
        simp only [compareTexts] at second
        omega
      | cons z u =>
        rw [compareTexts] at first second ⊢
        by_cases same : x = y
        · subst same
          rw [if_pos rfl] at first
          split
          · next same' => exact ih first (by rwa [if_pos same'] at second)
          · next differ' => rwa [if_neg differ'] at second
        · have differ := CChar.unsigned_injective.ne same
          rw [if_neg same] at first
          by_cases same' : y = z
          · subst same'
            rwa [if_neg same]
          · rw [if_neg same'] at second
            have apart : x ≠ z := by
              rintro rfl
              omega
            rw [if_neg apart]
            omega

end Order

/-! ## Entries -/

/-- The pointer in an entry. -/
def entry (memory : Memory) (base i : ℕ) : ℕ := read32 memory (base + i * 4)

/-- A comparison of entries. `strcmp` returns if both entries point to texts. -/
def compareEntries : Compar Unit :=
  fun _ memory a b => ((strcmp memory (read32 memory a) (read32 memory b)).getD 0, ())

/-- The pointer is one to its text, which lies outside of the table. -/
structure PointsTo (memory : Memory) (table : Region) (text : ℕ → CString) (p : ℕ) : Prop where
  holds : Holds memory p (stored (text p))
  apart : table.Apart ⟨p, (stored (text p)).length⟩
  short : (text p).length < addressSpace

def pointerOf (x : Record 4) : ℕ :=
  (x 0).toNat + 256 * (x 1).toNat + 65536 * (x 2).toNat + 16777216 * (x 3).toNat

variable {memory memory' : Memory} {base nmemb : ℕ} {text : ℕ → CString}

theorem PointsTo.changed {table : Region} {p : ℕ} (points : PointsTo memory table text p)
    (changes : ChangesOnly table memory memory') : PointsTo memory' table text p :=
  ⟨changes.holds points.apart points.holds, points.apart, points.short⟩

theorem PointsTo.strcmp_eq {table : Region} {p q : ℕ} (first : PointsTo memory table text p)
    (second : PointsTo memory table text q) : strcmp memory p q = some (compareTexts (text p) (text q)) :=
  strcmpLoop_stored first.holds second.holds first.short

def textOrder (text : ℕ → CString) (x y : Record 4) : ℤ := compareTexts (text (pointerOf x)) (text (pointerOf y))

/-- The comparison of the texts that pointers have at the start. -/
def compareByText (text : ℕ → CString) : Compar Unit :=
  fun _ memory a b => (compareTexts (text (read32 memory a)) (text (read32 memory b)), ())

theorem compareByText_compares (text : ℕ → CString) : Compares (compareByText text) (textOrder text) :=
  fun _ _ _ _ => rfl

theorem textOrder_signed (text : ℕ → CString) : SignedPreorder (textOrder text) := by
  refine ⟨?_, fun _ _ _ => compareTexts_trans⟩
  intro x y
  simp only [textOrder, compareTexts_flip (text (pointerOf x)) (text (pointerOf y))]
  omega

/-- Two entries that point to texts are compared by their texts. -/
theorem compareEntries_eq {table : Region} {a b : ℕ} (first : PointsTo memory table text (read32 memory a))
    (second : PointsTo memory table text (read32 memory b)) (state : Unit) :
    compareEntries state memory a b = compareByText text state memory a b := by
  simp only [compareEntries, first.strcmp_eq second, compareByText, Option.getD_some]

/-- Only the table has changed, and its entries have only been put in another order. -/
def Reordered (base nmemb : ℕ) (memory memory' : Memory) : Prop :=
  ChangesOnly ⟨base, nmemb * 4⟩ memory memory' ∧
    Rearranges 0 nmemb (recordAt memory 4 base) (recordAt memory' 4 base)

theorem Reordered.swap (reordered : Reordered base nmemb memory memory') {i j : ℕ} (first : i < nmemb)
    (second : j < nmemb) : Reordered base nmemb memory (swap memory' (base + i * 4) (base + j * 4) 4) := by
  constructor
  · intro query outside
    rw [← reordered.1 query outside]
    rcases outside with left | right
    · simp only at left
      exact swap_outside memory' (by omega) (by omega)
    · simp only at right
      exact swap_outside memory' (by omega) (by omega)
  · rw [recordAt_swap]
    exact reordered.2.trans (rearranges_swap _ ⟨Nat.zero_le i, first⟩ ⟨Nat.zero_le j, second⟩)

/-- The entries of a table point to texts. -/
def TextTable (memory : Memory) (base nmemb : ℕ) (text : ℕ → CString) : Prop :=
  ∀ i < nmemb, PointsTo memory ⟨base, nmemb * 4⟩ text (entry memory base i)

theorem TextTable.reordered (table : TextTable memory base nmemb text)
    (reordered : Reordered base nmemb memory memory') : TextTable memory' base nmemb text := by
  intro i bound
  have some := reordered.2.forall_range (p := fun x => PointsTo memory ⟨base, nmemb * 4⟩ text (pointerOf x))
    (fun k _ below => table k below) i (Nat.zero_le i) bound
  exact PointsTo.changed some reordered.1

theorem TextTable.coincides (table : TextTable memory base nmemb text) :
    Coincides compareEntries (compareByText text) 4 base nmemb (Reordered base nmemb memory) := by
  refine ⟨?_, fun _ reordered i first j second => reordered.swap first second⟩
  intro state memory' reordered i first j second
  exact compareEntries_eq (table.reordered reordered i first) (table.reordered reordered j second) state

/-- A table of pointers to texts that `qsort` has sorted with `strcmp` has the same pointers, in the order of their
texts, and nothing outside of it has changed. In it `bsearch` finds the text of a key if and only if an entry had it,
and the entry that it returns has it. -/
theorem sorted_texts_found (memory : Memory) (base : ℕ) (nmemb : BitVec 32) (text : ℕ → CString)
    (table : TextTable memory base nmemb.toNat text) (key : ℕ)
    (apart : Region.Apart ⟨base, nmemb.toNat * 4⟩ ⟨key, 4⟩)
    (keyText : PointsTo memory ⟨base, nmemb.toNat * 4⟩ text (read32 memory key)) :
    ∃ sorted found, (qsort compareEntries 4 base nmemb.toNat memory ()).1 = sorted ∧
      (bsearch compareEntries sorted key base nmemb 4 ()).1 = found ∧
      ChangesOnly ⟨base, nmemb.toNat * 4⟩ memory sorted ∧
      ((List.range nmemb.toNat).map (entry sorted base)).Perm ((List.range nmemb.toNat).map (entry memory base)) ∧
      ((List.range nmemb.toNat).map (entry sorted base)).Pairwise
        (fun p q => compareTexts (text p) (text q) ≤ 0) ∧
      (∀ p ∈ found, ∃ i < nmemb.toNat, p = base + i * 4 ∧
        text (entry sorted base i) = text (read32 memory key)) ∧
      (found.isSome ↔ ∃ i < nmemb.toNat, text (entry memory base i) = text (read32 memory key)) := by
  have start : base + 0 * 4 = base := by omega
  obtain ⟨same, reordered⟩ := table.coincides.qsort_eq ⟨fun _ _ => rfl, .refl ..⟩ ()
    (show 0 + nmemb.toNat ≤ nmemb.toNat by omega)
  have ordered := qsort_ordered (compareByText text) 4 base (compareByText_compares text)
    (textOrder_signed text).totalPreorder (by omega) 0 nmemb.toNat memory ()
  rw [start] at same reordered ordered
  rw [Nat.zero_add, ← same] at ordered
  rw [← same] at reordered
  obtain ⟨sorted, run⟩ : ∃ sorted, (qsort compareEntries 4 base nmemb.toNat memory ()).1 = sorted := ⟨_, rfl⟩
  rw [run] at reordered ordered
  -- the key and its text are outside of the table
  have sameKey : read32 sorted key = read32 memory key :=
    read32_congr fun query lower upper => reordered.1 query (apart.outside lower upper)
  have keyText' : PointsTo sorted ⟨base, nmemb.toNat * 4⟩ text (read32 sorted key) := by
    rw [sameKey]
    exact keyText.changed reordered.1
  have compared (state : Unit) (i : ℕ) (bound : i < nmemb.toNat) :
      (compareEntries state sorted key (base + i * 4)).1 =
        textOrder text (record sorted 4 key) (recordAt sorted 4 base i) := by
    rw [compareEntries_eq keyText' (table.reordered reordered i bound)]
    exact compareByText_compares text state sorted key (base + i * 4)
  have found := bsearch_of_descends compared ((textOrder_signed text).descends ordered (record sorted 4 key)) ()
  have equal (i : ℕ) : textOrder text (record sorted 4 key) (recordAt sorted 4 base i) = 0 ↔
      text (entry sorted base i) = text (read32 memory key) := by
    rw [textOrder, compareTexts_eq_zero, ← sameKey]
    exact eq_comm
  have permuted : ((List.range nmemb.toNat).map (entry sorted base)).Perm
      ((List.range nmemb.toNat).map (entry memory base)) := by
    have permuted := reordered.2.perm.map pointerOf
    rw [List.map_map, List.map_map] at permuted
    exact permuted
  refine ⟨sorted, _, run, rfl, reordered.1, permuted, ?_, ?_, ?_⟩
  · have pairwise := ordered.pairwise
    rw [List.pairwise_map] at pairwise ⊢
    exact pairwise
  · intro p returned
    obtain ⟨i, bound, same, zero⟩ := found.1 p returned
    exact ⟨i, bound, same, (equal i).mp zero⟩
  · rw [found.isSome_iff]
    simp only [equal]
    have members := (permuted.map text).mem_iff (a := text (read32 memory key))
    simpa only [List.map_map, List.mem_map, List.mem_range, Function.comp_apply] using members

/-- The pointers 32 and 40 stand at address 16, and 40 stands at address 8. -/
def tableMemory : Memory := overlay (fun _ => 0) (List.replicate 8 0 ++ word32 40 ++ List.replicate 4 0 ++
  word32 32 ++ word32 40 ++ List.replicate 8 0 ++ [98, 0, 0, 0, 0, 0, 0, 0, 97])

def tableText (p : ℕ) : CString := if p = 32 then cstr "b" else cstr "a"

theorem tableMemory_first : PointsTo tableMemory ⟨16, 8⟩ tableText 32 :=
  ⟨⟨by decide, by decide, trivial⟩, .inl (by decide), by decide⟩

theorem tableMemory_second : PointsTo tableMemory ⟨16, 8⟩ tableText 40 :=
  ⟨⟨by decide, by decide, trivial⟩, .inl (by decide), by decide⟩

theorem tableMemory_table : TextTable tableMemory 16 2 tableText := by
  intro i bound
  have two : i = 0 ∨ i = 1 := by omega
  rcases two with rfl | rfl
  · exact tableMemory_first
  · exact tableMemory_second

theorem sorted_texts_found_sample :
    ∃ sorted, (qsort compareEntries 4 16 2 tableMemory ()).1 = sorted ∧
      (bsearch compareEntries sorted 8 16 2 4 ()).1.isSome = true := by
  obtain ⟨sorted, found, run, search, _, _, _, _, iff⟩ := sorted_texts_found tableMemory 16 2 tableText
    tableMemory_table 8 (.inr (by decide)) tableMemory_second
  refine ⟨sorted, run, ?_⟩
  rw [search, iff]
  exact ⟨1, by decide, rfl⟩

end CLite
