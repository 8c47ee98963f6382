import CLite.Lib.Rearrangement
import CLite.Model.Sorting

/-! # Records in memory

An array of records is seen as a map from indices to the bytes of a record. `swap` exchanges two records of the
array, also if they are the same one, and so `qsort` only rearranges them. If the comparison is decided by the
records, the loop of `qsort` splits them at the pivot.
-/

namespace CLite

open ByteMemory Rearrangement

variable {σ : Type} {size : ℕ}

/-- The bytes of a record. -/
abbrev Record (size : ℕ) := Fin size → Byte

/-- The record at an address. -/
def record (memory : Memory) (size address : ℕ) : Record size := fun offset => memory (address + offset)

/-- The records of an array by their indices. -/
def recordAt (memory : Memory) (size base index : ℕ) : Record size := record memory size (base + index * size)

section Swap

variable {a b n : ℕ}

theorem swap_outside (memory : Memory) {query : ℕ} (left : query < a ∨ a + n ≤ query)
    (right : query < b ∨ b + n ≤ query) : swap memory a b n query = memory query := by
  induction n with
  | zero => rfl
  | succ n ih =>
    rw [swap]
    rw [Function.update_of_ne (by omega), Function.update_of_ne (by omega), ih (by omega) (by omega)]

/-- The bytes of two ranges are exchanged if the ranges are the same or apart. -/
theorem swap_inside (memory : Memory) (apart : a = b ∨ a + n ≤ b ∨ b + n ≤ a) {offset : ℕ} (bound : offset < n) :
    swap memory a b n (a + offset) = memory (b + offset) ∧ swap memory a b n (b + offset) = memory (a + offset) := by
  induction n with
  | zero => omega
  | succ n ih =>
    rw [swap]
    rcases Nat.lt_succ_iff_lt_or_eq.mp bound with earlier | rfl
    · obtain ⟨first, second⟩ := ih (by omega) earlier
      rw [Function.update_of_ne (by omega), Function.update_of_ne (by omega), Function.update_of_ne (by omega),
        Function.update_of_ne (by omega)]
      exact ⟨first, second⟩
    · have last : swap memory a b offset (a + offset) = memory (a + offset) ∧
          swap memory a b offset (b + offset) = memory (b + offset) :=
        ⟨swap_outside memory (by omega) (by omega), swap_outside memory (by omega) (by omega)⟩
      rw [last.1, last.2, Function.update_self]
      refine ⟨?_, rfl⟩
      rcases apart with rfl | apart
      · exact Function.update_self ..
      · rw [Function.update_of_ne (by omega), Function.update_self]

/-- Records with different indices are apart. -/
theorem records_apart {i j : ℕ} (size : ℕ) (order : i < j) (base : ℕ) :
    base + i * size + size ≤ base + j * size := by
  have step : (i + 1) * size ≤ j * size := Nat.mul_le_mul_right size order
  rw [Nat.succ_mul] at step
  omega

theorem recordAt_swap (memory : Memory) (size base i j : ℕ) :
    recordAt (swap memory (base + i * size) (base + j * size) size) size base =
      recordAt memory size base ∘ Equiv.swap i j := by
  have apart : base + i * size = base + j * size ∨ base + i * size + size ≤ base + j * size ∨
      base + j * size + size ≤ base + i * size := by
    rcases Nat.lt_trichotomy i j with less | rfl | more
    · exact .inr (.inl (records_apart size less base))
    · exact .inl rfl
    · exact .inr (.inr (records_apart size more base))
  funext k offset
  rw [Function.comp_apply, Equiv.swap_apply_def]
  have inside := swap_inside memory apart offset.isLt
  split
  · next same =>
    subst same
    exact inside.1
  · split
    · next same =>
      subst same
      exact inside.2
    · next notI notJ =>
      have other {m : ℕ} (different : k ≠ m) : base + k * size + offset < base + m * size ∨
          base + m * size + size ≤ base + k * size + offset := by
        rcases Nat.lt_or_gt_of_ne different with less | more
        · have := records_apart size less base
          omega
        · have := records_apart size more base
          omega
      exact swap_outside memory (other notI) (other notJ)

end Swap

section Partition

variable {compar : Compar σ} {base lo n i j : ℕ} {memory memory' : Memory} {state state' : σ}

/-- The address of an element of a part of the array. -/
theorem address_add (base lo index size : ℕ) : base + lo * size + index * size = base + (lo + index) * size := by
  rw [Nat.add_mul, Nat.add_assoc]

/-- The loop rearranges the records that it has passed. -/
theorem partitionLoop_rearranges {pivot : ℕ}
    (scanned : partitionLoop compar (base + lo * size) size pivot memory state j = (i, memory', state')) :
    Rearranges lo (lo + j) (recordAt memory size base) (recordAt memory' size base) := by
  induction j generalizing i memory' state' with
  | zero =>
    cases scanned
    exact .refl ..
  | succ j ih =>
    obtain ⟨i₀, middle, before⟩ : ∃ i₀ middle, partitionLoop compar (base + lo * size) size pivot memory state j =
        (i₀, middle) := ⟨_, _, rfl⟩
    have earlier := (ih before).mono (Nat.le_refl lo) (Nat.le_succ (lo + j))
    have bound := partitionLoop_le before
    rw [partitionLoop, before] at scanned
    dsimp only at scanned
    split at scanned
    · cases scanned
      rw [address_add, address_add, recordAt_swap]
      exact earlier.trans (rearranges_swap _ ⟨by omega, by omega⟩ ⟨by omega, by omega⟩)
    · cases scanned
      exact earlier

/-- The comparison is decided by the records. -/
def Compares (compar : Compar σ) (cmp : Record size → Record size → ℤ) : Prop :=
  ∀ state memory a b, (compar state memory a b).1 = cmp (record memory size a) (record memory size b)

/-- The loop splits the records that it has passed at the pivot behind them. -/
theorem partitionLoop_split {cmp : Record size → Record size → ℤ} (compares : Compares compar cmp) {last : ℕ}
    (behind : j ≤ last)
    (scanned : partitionLoop compar (base + lo * size) size (base + (lo + last) * size) memory state j =
      (i, memory', state')) :
    Split (fun x => cmp x (recordAt memory size base (lo + last)) ≤ 0) lo (lo + i) (lo + j)
      (recordAt memory' size base) := by
  induction j generalizing i memory' state' with
  | zero =>
    cases scanned
    exact split_start ..
  | succ j ih =>
    obtain ⟨i₀, middle, s, before⟩ : ∃ i₀ middle s, partitionLoop compar (base + lo * size) size
        (base + (lo + last) * size) memory state j = (i₀, middle, s) := ⟨_, _, _, rfl⟩
    have split := ih (Nat.le_of_succ_le behind) before
    have bound := partitionLoop_le before
    have pivot := (partitionLoop_rearranges before).outside (k := lo + last) (.inr (by omega))
    have decided := compares s middle (base + lo * size + j * size) (base + (lo + last) * size)
    rw [address_add] at decided
    change _ = cmp (recordAt middle size base (lo + j)) (recordAt middle size base (lo + last)) at decided
    rw [pivot] at decided
    rw [partitionLoop, before] at scanned
    dsimp only at scanned
    rw [address_add, decided] at scanned
    split at scanned
    · next has =>
      cases scanned
      rw [address_add, recordAt_swap]
      exact split.exchange (by omega) has
    · next without =>
      cases scanned
      exact split.skip without

end Partition

section Recursion

variable {compar : Compar σ} {base nmemb i : ℕ} {memory memory' : Memory} {state state' : σ}

theorem qsort_short (compar : Compar σ) (size base : ℕ) (short : nmemb < 2) (memory : Memory) (state : σ) :
    qsort compar size base nmemb memory state = (memory, state) := by
  rw [qsort, if_pos (.inl short)]

/-- The parts beside the pivot are sorted one after the other; a part of one record is left as it is. -/
theorem qsort_step (long : ¬ nmemb < 2) (positive : size ≠ 0)
    (scanned : partitionLoop compar base size (base + (nmemb - 1) * size) memory state (nmemb - 1) =
      (i, memory', state')) :
    ∃ left, qsort compar size base i (swap memory' (base + i * size) (base + (nmemb - 1) * size) size) state' = left ∧
      qsort compar size base nmemb memory state =
        qsort compar size (base + (i + 1) * size) (nmemb - i - 1) left.1 left.2 := by
  refine ⟨_, rfl, ?_⟩
  have part (base count : ℕ) (memory : Memory) (state : σ) :
      (if 1 < count then qsort compar size base count memory state else (memory, state)) =
        qsort compar size base count memory state := by
    split
    · rfl
    · rw [qsort_short _ _ _ (by omega)]
  rw [qsort, if_neg (not_or.mpr ⟨long, positive⟩)]
  dsimp only
  rw [scanned]
  dsimp only
  rw [part, part]

end Recursion

end CLite
