import CLite.Proofs.Sorting

/-! # `qsort` sorts

Whatever the comparison returns, `qsort` only exchanges records of its array, so that it leaves a permutation of
them. Its recursion is on two parts that leave out the pivot, which bounds it for every comparison. If the
comparison is a total preorder of the records, the parts lie on both sides of the pivot and the array is in order.
-/

namespace CLite

open ByteMemory Rearrangement

variable {σ : Type} {size : ℕ}

/-- The records of an array. -/
def records (memory : Memory) (size base nmemb : ℕ) : List (Record size) :=
  (List.range nmemb).map (recordAt memory size base)

/-- Of any two records one is not after the other, and the order is transitive. -/
structure TotalPreorder (cmp : Record size → Record size → ℤ) : Prop where
  total : ∀ x y, cmp x y ≤ 0 ∨ cmp y x ≤ 0
  trans : ∀ x y z, cmp x y ≤ 0 → cmp y z ≤ 0 → cmp x z ≤ 0

section Runs

variable (compar : Compar σ) (size base : ℕ)

/-- `qsort` of a part of the array rearranges that part. -/
theorem qsort_rearranges (lo n : ℕ) (memory : Memory) (state : σ) :
    Rearranges lo (lo + n) (recordAt memory size base)
      (recordAt (qsort compar size (base + lo * size) n memory state).1 size base) := by
  induction n using Nat.strong_induction_on generalizing lo memory state with
  | _ n ih =>
    by_cases long : n < 2
    · rw [qsort_short _ _ _ long]
      exact .refl ..
    by_cases positive : size = 0
    · subst positive
      rw [qsort, if_pos (.inr rfl)]
      exact .refl ..
    obtain ⟨i, memory', state', scanned⟩ : ∃ i memory' state', partitionLoop compar (base + lo * size) size
        (base + lo * size + (n - 1) * size) memory state (n - 1) = (i, memory', state') := ⟨_, _, _, rfl⟩
    have bound := partitionLoop_le scanned
    obtain ⟨left, sorted, whole⟩ := qsort_step long positive scanned
    have first := (partitionLoop_rearranges scanned).mono (Nat.le_refl lo) (show lo + (n - 1) ≤ lo + n by omega)
    have second := rearranges_swap (recordAt memory' size base) (show lo ≤ lo + i ∧ lo + i < lo + n by omega)
      (show lo ≤ lo + (n - 1) ∧ lo + (n - 1) < lo + n by omega)
    rw [address_add, address_add] at sorted
    rw [← recordAt_swap] at second
    have third :=
      ih i (by omega) lo (swap memory' (base + (lo + i) * size) (base + (lo + (n - 1)) * size) size) state'
    rw [sorted] at third
    have fourth := ih (n - i - 1) (by omega) (lo + (i + 1)) left.1 left.2
    rw [whole, address_add]
    exact ((first.trans second).trans (third.mono (Nat.le_refl lo) (by omega))).trans
      (fourth.mono (by omega) (by omega))

/-- `qsort` of a part of the array puts that part in order. -/
theorem qsort_ordered {cmp : Record size → Record size → ℤ} (compares : Compares compar cmp)
    (preorder : TotalPreorder cmp) (positive : size ≠ 0) (lo n : ℕ) (memory : Memory) (state : σ) :
    Ordered (fun x y => cmp x y ≤ 0) lo (lo + n)
      (recordAt (qsort compar size (base + lo * size) n memory state).1 size base) := by
  induction n using Nat.strong_induction_on generalizing lo memory state with
  | _ n ih =>
    by_cases long : n < 2
    · exact ordered_of_short _ (by omega) _
    obtain ⟨i, memory', state', scanned⟩ : ∃ i memory' state', partitionLoop compar (base + lo * size) size
        (base + lo * size + (n - 1) * size) memory state (n - 1) = (i, memory', state') := ⟨_, _, _, rfl⟩
    have bound := partitionLoop_le scanned
    obtain ⟨left, sorted, whole⟩ := qsort_step long positive scanned
    rw [address_add, address_add] at sorted
    rw [address_add] at scanned
    obtain ⟨pivot, same⟩ : ∃ pivot, recordAt memory size base (lo + (n - 1)) = pivot := ⟨_, rfl⟩
    have kept := (partitionLoop_rearranges scanned).outside (k := lo + (n - 1)) (.inr (Nat.le_refl _))
    have split := partitionLoop_split compares (Nat.le_refl (n - 1)) scanned
    rw [same] at kept split
    have reflexive : cmp pivot pivot ≤ 0 := (preorder.total pivot pivot).elim id id
    -- The last exchange of the loop puts the pivot between the two parts.
    have parts := split.exchange (show lo + i ≤ lo + (n - 1) by omega) (by rw [kept]; exact reflexive)
    have middle : (recordAt memory' size base ∘ Equiv.swap (lo + i) (lo + (n - 1))) (lo + i) = pivot := by
      rw [Function.comp_apply, Equiv.swap_apply_left, kept]
    rw [← recordAt_swap] at parts middle
    have third := qsort_rearranges compar size base lo i
      (swap memory' (base + (lo + i) * size) (base + (lo + (n - 1)) * size) size) state'
    have leftOrdered := ih i (by omega) lo
      (swap memory' (base + (lo + i) * size) (base + (lo + (n - 1)) * size) size) state'
    rw [sorted] at third leftOrdered
    have fourth := qsort_rearranges compar size base (lo + (i + 1)) (n - i - 1) left.1 left.2
    have rightOrdered := ih (n - i - 1) (by omega) (lo + (i + 1)) left.1 left.2
    rw [whole, address_add]
    rw [show lo + (i + 1) + (n - i - 1) = lo + n by omega] at fourth rightOrdered
    have pivotStays := (fourth.outside (k := lo + i) (.inl (by omega))).trans
      ((third.outside (.inr (Nat.le_refl _))).trans middle)
    refine .around preorder.trans (leftOrdered.congr fun k _ upper => fourth.outside (.inl (by omega))) rightOrdered
      ?_ ?_
    · intro k lower upper
      rw [pivotStays, fourth.outside (.inl (by omega))]
      exact third.forall_range (p := fun x => cmp x pivot ≤ 0) (fun k lower upper => parts.1 k lower (by omega)) k
        lower upper
    · intro k lower upper
      rw [pivotStays]
      refine fourth.forall_range (p := fun x => cmp pivot x ≤ 0) ?_ k lower upper
      intro k lower upper
      rw [third.outside (.inr (by omega))]
      exact (preorder.total _ _).resolve_left (parts.2 k lower (by omega))

end Runs

/-- `qsort` permutes the records of an array, and sorts them if the comparison is a total preorder. -/
theorem qsort_sorts (compar : Compar σ) (size base nmemb : ℕ) (positive : 1 ≤ size) (memory : Memory) (state : σ) :
    (records (qsort compar size base nmemb memory state).1 size base nmemb).Perm (records memory size base nmemb) ∧
      ∀ cmp : Record size → Record size → ℤ, Compares compar cmp → TotalPreorder cmp →
        (records (qsort compar size base nmemb memory state).1 size base nmemb).Pairwise fun x y => cmp x y ≤ 0 := by
  have start : base + 0 * size = base := by omega
  constructor
  · have rearranged := qsort_rearranges compar size base 0 nmemb memory state
    rw [start, Nat.zero_add] at rearranged
    exact rearranged.perm
  · intro cmp compares preorder
    have ordered := qsort_ordered compar size base compares preorder (by omega) 0 nmemb memory state
    rw [start, Nat.zero_add] at ordered
    exact ordered.pairwise

/-- A comparison of single bytes. -/
def compareBytes : Compar Unit := fun _ memory a b => ((memory a).toNat - (memory b).toNat, ())

def byteOrder (x y : Record 1) : ℤ := (x 0).toNat - (y 0).toNat

theorem compareBytes_compares : Compares compareBytes byteOrder := fun _ _ _ _ => rfl

theorem byteOrder_preorder : TotalPreorder byteOrder := by
  refine ⟨?_, ?_⟩
  · intro x y
    simp only [byteOrder]
    omega
  · intro x y z
    simp only [byteOrder]
    omega

/-- Three bytes at address 16. -/
theorem qsort_sorts_bytes :
    1 ≤ 1 ∧ (records (qsort compareBytes 1 16 3 (overlay (fun _ => 0) (List.replicate 16 0 ++ [3, 1, 2])) ()).1 1 16
      3).Pairwise fun x y => byteOrder x y ≤ 0 :=
  ⟨by decide, (qsort_sorts compareBytes 1 16 3 (by decide) _ ()).2 byteOrder compareBytes_compares byteOrder_preorder⟩

end CLite
