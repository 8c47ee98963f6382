import CLite.Soundness.Qsort

/-! # `bsearch` finds a match

The elements before `l` compare greater and those from `r` on compare less, so that a match lies between them. The
midpoint is inside the interval for every length, and one of the bounds passes it. On an array that `qsort` has
sorted, the comparisons with a key go from greater to less.
-/

namespace CLite

open ByteMemory Rearrangement

variable {σ : Type} {size : ℕ}

/-- The pointer is one to an element that compares equal, and it is null only if there is no such element. -/
def Finds (found : Option ℕ) (base size nmemb : ℕ) (value : ℕ → ℤ) : Prop :=
  (∀ p ∈ found, ∃ i < nmemb, p = base + i * size ∧ value i = 0) ∧ (found = none → ∀ i < nmemb, value i ≠ 0)

/-- The elements compare greater, then equal, then less. -/
def Descends (nmemb : ℕ) (value : ℕ → ℤ) : Prop :=
  ∀ i j, i ≤ j → j < nmemb → (value j).sign ≤ (value i).sign

section Search

variable {compar : Compar σ} {memory : Memory} {key base nmemb : ℕ} {value : ℕ → ℤ}

/-- A match lies in the interval. -/
structure Narrowed (nmemb : ℕ) (value : ℕ → ℤ) (l r : ℕ) : Prop where
  within : r ≤ nmemb
  greater : ∀ i < l, i < nmemb → 0 < value i
  less : ∀ i, r ≤ i → i < nmemb → value i < 0

theorem Narrowed.left {l r m : ℕ} (narrowed : Narrowed nmemb value l r) (descends : Descends nmemb value)
    (inside : m < r) (before : value m < 0) : Narrowed nmemb value l m := by
  refine ⟨inside.le.trans narrowed.within, narrowed.greater, ?_⟩
  intro i lower upper
  have sign := descends m i lower upper
  rw [Int.sign_eq_neg_one_of_neg before] at sign
  exact Int.sign_neg_iff.mp (by omega)

theorem Narrowed.right {l r m : ℕ} (narrowed : Narrowed nmemb value l r) (descends : Descends nmemb value)
    (inside : m < r) (behind : 0 < value m) : Narrowed nmemb value (m + 1) r := by
  refine ⟨narrowed.within, ?_, narrowed.less⟩
  intro i upper _
  have sign := descends i m (Nat.le_of_lt_succ upper) (inside.trans_le narrowed.within)
  rw [Int.sign_eq_one_of_pos behind] at sign
  exact Int.sign_pos_iff.mp (by omega)

theorem Narrowed.finds_none {l r : ℕ} (narrowed : Narrowed nmemb value l r) (empty : r ≤ l) :
    Finds none base size nmemb value := by
  refine ⟨nofun, ?_⟩
  intro _ i bound
  rcases lt_or_ge i l with before | behind
  · exact (narrowed.greater i before bound).ne'
  · exact (narrowed.less i (empty.trans behind) bound).ne

theorem bsearchLoop_finds
    (compared : ∀ state, ∀ i < nmemb, (compar state memory key (base + i * size)).1 = value i)
    (descends : Descends nmemb value) (l r : BitVec 32) (state : σ)
    (narrowed : Narrowed nmemb value l.toNat r.toNat) :
    Finds (bsearchLoop compar memory key base size l r state).1 base size nmemb value := by
  have inside {l r : BitVec 32} (order : l < r) : (l + (r - l) / 2).toNat < r.toNat := by
    have less : l.toNat < r.toNat := order
    rw [midpoint_toNat order]
    omega
  -- The induction follows the recursion of the loop; each call keeps a match in its interval.
  fun_induction bsearchLoop compar memory key base size l r state with
  | case1 l r state order m elem after called =>
    have below := inside order
    have result := compared state m.toNat (below.trans_le narrowed.within)
    rw [called] at result
    refine ⟨?_, nofun⟩
    rintro p ⟨⟩
    exact ⟨m.toNat, below.trans_le narrowed.within, rfl, result.symm⟩
  | case2 l r state order m elem cmp after called _ less ih =>
    have below := inside order
    have result := compared state m.toNat (below.trans_le narrowed.within)
    rw [called] at result
    exact ih (narrowed.left descends below (result ▸ less))
  | case3 l r state order m elem cmp after called different notLess ih =>
    have below := inside order
    have result := compared state m.toNat (below.trans_le narrowed.within)
    rw [called] at result
    have greater : 0 < value m.toNat := by
      rw [← result]
      dsimp only
      omega
    apply ih
    rw [midpoint_succ_toNat order, ← midpoint_toNat order]
    exact narrowed.right descends below greater
  | case4 l r state empty => exact narrowed.finds_none (not_lt.mp empty)

end Search

/-- The sign of the comparison tells which of two records comes first, and the order is transitive. -/
structure SignedPreorder (cmp : Record size → Record size → ℤ) : Prop where
  flip : ∀ x y, cmp x y ≤ 0 ↔ 0 ≤ cmp y x
  trans : ∀ x y z, cmp x y ≤ 0 → cmp y z ≤ 0 → cmp x z ≤ 0

theorem SignedPreorder.totalPreorder {cmp : Record size → Record size → ℤ} (preorder : SignedPreorder cmp) :
    TotalPreorder cmp := by
  refine ⟨?_, preorder.trans⟩
  intro x y
  have flip := preorder.flip x y
  omega

/-- Along an ordered array the comparisons with a key go from greater to less. -/
theorem SignedPreorder.descends {cmp : Record size → Record size → ℤ} (preorder : SignedPreorder cmp) {nmemb : ℕ}
    {a : ℕ → Record size} (ordered : Ordered (fun x y => cmp x y ≤ 0) 0 nmemb a) (key : Record size) :
    Descends nmemb fun i => cmp key (a i) := by
  intro i j order bound
  rcases Nat.eq_or_lt_of_le order with rfl | order
  · exact Int.le_refl _
  have sorted := ordered i j (Nat.zero_le i) order bound
  dsimp only at sorted ⊢
  rcases lt_trichotomy (cmp key (a i)) 0 with less | equal | greater
  · have later := preorder.trans _ _ _ less.le sorted
    have different : cmp key (a j) ≠ 0 := by
      intro equal
      have back := preorder.trans _ _ _ sorted ((preorder.flip _ _).mpr equal.ge)
      exact absurd ((preorder.flip _ _).mp back) (not_le.mpr less)
    rw [Int.sign_eq_neg_one_of_neg less, Int.sign_eq_neg_one_of_neg (lt_of_le_of_ne later different)]
  · have later := preorder.trans _ _ _ equal.le sorted
    rw [equal, Int.sign_zero]
    exact Int.sign_nonpos_iff.mpr later
  · have signs := Int.sign_trichotomy (cmp key (a j))
    rw [Int.sign_eq_one_of_pos greater]
    omega

theorem Finds.isSome_iff {found : Option ℕ} {base nmemb : ℕ} {value : ℕ → ℤ}
    (finds : Finds found base size nmemb value) : found.isSome = true ↔ ∃ i < nmemb, value i = 0 := by
  constructor
  · intro some
    obtain ⟨p, same⟩ := Option.isSome_iff_exists.mp some
    obtain ⟨i, bound, -, equal⟩ := finds.1 p same
    exact ⟨i, bound, equal⟩
  · rintro ⟨i, bound, equal⟩
    by_contra none
    exact finds.2 (Option.not_isSome_iff_eq_none.mp none) i bound equal

/-- In the whole array a match lies between its bounds. -/
theorem bsearch_of_descends {compar : Compar σ} {memory : Memory} {key base : ℕ} {nmemb : BitVec 32} {value : ℕ → ℤ}
    (compared : ∀ state, ∀ i < nmemb.toNat, (compar state memory key (base + i * size)).1 = value i)
    (descends : Descends nmemb.toNat value) (state : σ) :
    Finds (bsearch compar memory key base nmemb size state).1 base size nmemb.toNat value := by
  apply bsearchLoop_finds compared descends
  refine ⟨Nat.le_refl _, ?_, ?_⟩
  · intro i before
    exact absurd before (Nat.not_lt_zero i)
  · intro i behind inside
    exact absurd inside (Nat.not_lt.mpr behind)

/-- The records of an array are those that a rearranged array has. -/
theorem mem_records_iff {memory sorted : Memory} {base nmemb : ℕ}
    (rearranged : Rearranges 0 nmemb (recordAt memory size base) (recordAt sorted size base)) (x : Record size) :
    x ∈ records memory size base nmemb ↔ ∃ i < nmemb, recordAt sorted size base i = x := by
  have same := rearranged.perm.mem_iff (a := x)
  rw [records, ← same, List.mem_map]
  simp only [List.mem_range]

/-- `bsearch` finds a match if there is one, and on a sorted array exactly the keys that were in it. -/
theorem bsearch_finds (compar : Compar σ) (size base : ℕ) (nmemb : BitVec 32) :
    (∀ memory key value, (∀ state, ∀ i < nmemb.toNat, (compar state memory key (base + i * size)).1 = value i) →
        Descends nmemb.toNat value →
        ∀ state, Finds (bsearch compar memory key base nmemb size state).1 base size nmemb.toNat value) ∧
      ∀ cmp : Record size → Record size → ℤ, Compares compar cmp → SignedPreorder cmp → 1 ≤ size →
        ∀ memory before, ∃ sorted after, qsort compar size base nmemb.toNat memory before = (sorted, after) ∧
          ∀ key state, Finds (bsearch compar sorted key base nmemb size state).1 base size nmemb.toNat
              (fun i => cmp (record sorted size key) (recordAt sorted size base i)) ∧
            ((bsearch compar sorted key base nmemb size state).1.isSome ↔
              ∃ x ∈ records memory size base nmemb.toNat, cmp (record sorted size key) x = 0) := by
  refine ⟨fun _ _ _ compared descends state => bsearch_of_descends compared descends state, ?_⟩
  intro cmp compares preorder positive memory before
  obtain ⟨sorted, after, run⟩ : ∃ sorted after, qsort compar size base nmemb.toNat memory before = (sorted, after) :=
    ⟨_, _, rfl⟩
  refine ⟨sorted, after, run, ?_⟩
  intro key state
  have start : base + 0 * size = base := by omega
  have ordered :=
    qsort_ordered compar size base compares preorder.totalPreorder (by omega) 0 nmemb.toNat memory before
  have rearranged := qsort_rearranges compar size base 0 nmemb.toNat memory before
  rw [start, Nat.zero_add, run] at ordered rearranged
  have found := bsearch_of_descends (fun state i _ => compares state sorted key (base + i * size))
    (preorder.descends ordered (record sorted size key)) state
  refine ⟨found, found.isSome_iff.trans ?_⟩
  constructor
  · rintro ⟨i, bound, equal⟩
    exact ⟨_, (mem_records_iff rearranged _).mpr ⟨i, bound, rfl⟩, equal⟩
  · rintro ⟨x, member, equal⟩
    obtain ⟨i, bound, rfl⟩ := (mem_records_iff rearranged x).mp member
    exact ⟨i, bound, equal⟩

theorem byteOrder_signed : SignedPreorder byteOrder := by
  refine ⟨?_, byteOrder_preorder.trans⟩
  intro x y
  simp only [byteOrder]
  omega

/-- The array `3 1 2` at address 16, searched for the byte at address 0. -/
theorem bsearch_finds_bytes :
    ∃ sorted after, qsort compareBytes 1 16 3 (overlay (fun _ => 2) (List.replicate 16 2 ++ [3, 1, 2])) () =
        (sorted, after) ∧
      ((bsearch compareBytes sorted 0 16 3 1 ()).1.isSome ↔
        ∃ x ∈ records (overlay (fun _ => 2) (List.replicate 16 2 ++ [3, 1, 2])) 1 16 3,
          byteOrder (record sorted 1 0) x = 0) := by
  obtain ⟨sorted, after, run, found⟩ := (bsearch_finds compareBytes 1 16 3).2 byteOrder compareBytes_compares
    byteOrder_signed (by decide) (overlay (fun _ => 2) (List.replicate 16 2 ++ [3, 1, 2])) ()
  exact ⟨sorted, after, run, (found 0 ()).2⟩

end CLite
