import Mathlib.Data.Nat.Choose.Basic
import Mathlib.Data.Nat.Size
import CLite.Soundness.Bsearch

/-! # How often the comparison is called

A comparison function may count its calls, as a program would do it with a static variable. Whatever it returns,
`qsort` calls it at most once for each pair of elements, and `bsearch` at most once for each binary digit of the
number of elements. An array that is already in order is the worst case of `qsort`.
-/

namespace CLite

open ByteMemory

variable {σ : Type} {size : ℕ}

/-- The comparison function with a list of the pointers it was called with. -/
def logging (compar : Compar σ) : Compar (List (ℕ × ℕ) × σ) := fun (calls, state) memory a b =>
  ((compar state memory a b).1, calls ++ [(a, b)], (compar state memory a b).2)

/-! ## `qsort` -/

section Pairs

theorem choose_two_succ (n : ℕ) : (n + 1).choose 2 = n + n.choose 2 := by
  rw [Nat.choose_succ_succ', Nat.choose_one_right]

/-- The pairs within two parts, and those with the pivot. -/
theorem choose_two_parts (i r : ℕ) : i + r + i.choose 2 + r.choose 2 ≤ (i + r + 1).choose 2 := by
  have parts : i.choose 2 + r.choose 2 ≤ (i + r).choose 2 := by
    induction r with
    | zero => exact Nat.le_refl _
    | succ r ih =>
      rw [← Nat.add_assoc, choose_two_succ, choose_two_succ]
      omega
  rw [choose_two_succ]
  omega

end Pairs

/-- The loop compares each element that it passes with the pivot. -/
theorem partitionLoop_logging (compar : Compar σ) (b size pivot : ℕ) (memory : Memory) (calls : List (ℕ × ℕ))
    (state : σ) (j : ℕ) :
    partitionLoop (logging compar) b size pivot memory (calls, state) j =
      ((partitionLoop compar b size pivot memory state j).1, (partitionLoop compar b size pivot memory state j).2.1,
        calls ++ (List.range j).map fun k => (b + k * size, pivot),
        (partitionLoop compar b size pivot memory state j).2.2) := by
  induction j with
  | zero => simp only [partitionLoop, List.range_zero, List.map_nil, List.append_nil]
  | succ j ih =>
    simp only [partitionLoop, ih, logging, List.range_succ, List.map_append, List.map_cons, List.map_nil,
      List.append_assoc]
    split
    · rfl
    · rfl

/-- The calls are made with two different elements, the one in front first. -/
def WithinArray (base size n : ℕ) (calls : List (ℕ × ℕ)) : Prop :=
  ∀ call ∈ calls, ∃ i j, i < j ∧ j < n ∧ call = (base + i * size, base + j * size)

theorem WithinArray.shift {base n lo total : ℕ} {calls : List (ℕ × ℕ)}
    (within : WithinArray (base + lo * size) size n calls) (room : lo + n ≤ total) :
    WithinArray base size total calls := by
  intro call member
  obtain ⟨i, j, order, bound, rfl⟩ := within call member
  exact ⟨lo + i, lo + j, by omega, by omega, by rw [address_add, address_add]⟩

theorem WithinArray.append {base n : ℕ} {first second : List (ℕ × ℕ)} (one : WithinArray base size n first)
    (other : WithinArray base size n second) : WithinArray base size n (first ++ second) := by
  intro call member
  exact (List.mem_append.mp member).elim (one call) (other call)

theorem withinArray_scan (base size n : ℕ) : WithinArray base size (n + 1)
    ((List.range n).map fun k => (base + k * size, base + n * size)) := by
  intro call member
  obtain ⟨k, inside, rfl⟩ := List.mem_map.mp member
  exact ⟨k, n, List.mem_range.mp inside, Nat.lt_succ_self n, rfl⟩

/-- Counting the calls changes nothing else, and there are few of them. -/
theorem qsort_logging (compar : Compar σ) (size base n : ℕ) (memory : Memory) (calls : List (ℕ × ℕ)) (state : σ) :
    ∃ more, qsort (logging compar) size base n memory (calls, state) =
        ((qsort compar size base n memory state).1, calls ++ more, (qsort compar size base n memory state).2) ∧
      more.length ≤ n.choose 2 ∧ WithinArray base size n more := by
  induction n using Nat.strong_induction_on generalizing base memory calls state with
  | _ n ih =>
    by_cases trivially : n < 2 ∨ size = 0
    · refine ⟨[], ?_, Nat.zero_le _, by intro call member; cases member⟩
      rw [qsort, qsort, if_pos trivially, if_pos trivially, List.append_nil]
    obtain ⟨long, positive⟩ := not_or.mp trivially
    obtain ⟨i, memory', state', scanned⟩ : ∃ i memory' state', partitionLoop compar base size
        (base + (n - 1) * size) memory state (n - 1) = (i, memory', state') := ⟨_, _, _, rfl⟩
    have bound := partitionLoop_le scanned
    have logged := partitionLoop_logging compar base size (base + (n - 1) * size) memory calls state (n - 1)
    rw [scanned] at logged
    obtain ⟨left, sorted, whole⟩ := qsort_step long positive scanned
    obtain ⟨left', sorted', whole'⟩ := qsort_step long positive logged
    obtain ⟨first, leftRun, leftFew, leftWithin⟩ := ih i (by omega) base
      (swap memory' (base + i * size) (base + (n - 1) * size) size) _ state'
    rw [sorted] at leftRun
    rw [leftRun] at sorted'
    subst sorted'
    obtain ⟨second, rightRun, rightFew, rightWithin⟩ := ih (n - i - 1) (by omega) (base + (i + 1) * size)
      left.1 _ left.2
    rw [← whole] at rightRun
    rw [rightRun] at whole'
    have scan := withinArray_scan base size (n - 1)
    rw [Nat.sub_add_cancel (by omega)] at scan
    refine ⟨_, by rw [whole', List.append_assoc, List.append_assoc], ?_, ?_⟩
    · have pairs := choose_two_parts i (n - i - 1)
      rw [show i + (n - i - 1) + 1 = n by omega] at pairs
      rw [List.length_append, List.length_append, List.length_map, List.length_range]
      omega
    · refine scan.append (WithinArray.append ?_ (rightWithin.shift (by omega)))
      intro call member
      obtain ⟨a, b, order, inside, same⟩ := leftWithin call member
      exact ⟨a, b, order, by omega, same⟩

theorem swap_self (memory : Memory) (a n : ℕ) : swap memory a a n = memory := by
  induction n with
  | zero => rfl
  | succ n ih => simp only [swap, ih, Function.update_eq_self]

/-- If no element comes after the pivot, the loop leaves everything in its place. -/
theorem partitionLoop_in_order {compar : Compar σ} {cmp : Record size → Record size → ℤ}
    (compares : Compares compar cmp) {base last : ℕ} {memory : Memory} (state : σ) {j : ℕ}
    (order : ∀ k < j, cmp (recordAt memory size base k) (recordAt memory size base last) ≤ 0) :
    ∃ state', partitionLoop compar base size (base + last * size) memory state j = (j, memory, state') := by
  induction j with
  | zero => exact ⟨state, rfl⟩
  | succ j ih =>
    obtain ⟨state', scanned⟩ := ih fun k before => order k (Nat.lt_succ_of_lt before)
    have decided := compares state' memory (base + j * size) (base + last * size)
    refine ⟨(compar state' memory (base + j * size) (base + last * size)).2, ?_⟩
    simp only [partitionLoop, scanned]
    rw [if_pos (by rw [decided]; exact order j (Nat.lt_succ_self j)), swap_self]

/-- In an array that is in order every pair is compared. -/
theorem qsort_in_order {compar : Compar σ} {cmp : Record size → Record size → ℤ} (compares : Compares compar cmp)
    (positive : size ≠ 0) {base n : ℕ} {memory : Memory} (calls : List (ℕ × ℕ)) (state : σ)
    (order : ∀ i j, i < j → j < n → cmp (recordAt memory size base i) (recordAt memory size base j) ≤ 0) :
    (qsort (logging compar) size base n memory (calls, state)).2.1.length = calls.length + n.choose 2 := by
  induction n generalizing calls state with
  | zero =>
    rw [qsort_short _ _ _ (by decide)]
    rfl
  | succ n ih =>
    by_cases short : n + 1 < 2
    · obtain rfl : n = 0 := by omega
      rw [qsort_short _ _ _ short]
      rfl
    obtain ⟨state', scanned⟩ := partitionLoop_in_order compares state
      fun k before => order k n before (Nat.lt_succ_self n)
    have logged := partitionLoop_logging compar base size (base + n * size) memory calls state n
    rw [scanned] at logged
    obtain ⟨left, sorted, whole⟩ := qsort_step short positive logged
    rw [whole, qsort_short _ _ _ (by omega), ← sorted]
    simp only [Nat.add_sub_cancel, swap_self]
    rw [ih _ _ fun i j less bound => order i j less (Nat.lt_succ_of_lt bound), choose_two_succ, List.length_append,
      List.length_map, List.length_range, Nat.add_assoc]

/-- Whatever the comparison function returns, and whether it remembers its calls or not, `qsort` calls it at most once
for each pair of elements, with pointers to two different elements. It calls it that often for every array that is
already in order. -/
theorem qsort_calls (compar : Compar σ) (size base nmemb : ℕ) (memory : Memory) (state : σ) :
    ∃ calls, qsort (logging compar) size base nmemb memory ([], state) =
        ((qsort compar size base nmemb memory state).1, calls, (qsort compar size base nmemb memory state).2) ∧
      WithinArray base size nmemb calls ∧ calls.length ≤ nmemb.choose 2 ∧
      ∀ cmp : Record size → Record size → ℤ, Compares compar cmp → 1 ≤ size →
        (records memory size base nmemb).Pairwise (fun x y => cmp x y ≤ 0) → calls.length = nmemb.choose 2 := by
  obtain ⟨calls, ran, few, within⟩ := qsort_logging compar size base nmemb memory [] state
  refine ⟨calls, ran, within, few, ?_⟩
  intro cmp compares positive ordered
  have order : ∀ i j, i < j → j < nmemb →
      cmp (recordAt memory size base i) (recordAt memory size base j) ≤ 0 := by
    intro i j less bound
    rw [records, List.pairwise_map] at ordered
    have pair := List.pairwise_iff_getElem.mp ordered i j (by rw [List.length_range]; omega)
      (by rwa [List.length_range]) less
    simpa only [List.getElem_range] using pair
  have all := qsort_in_order compares (by omega) [] state order
  rw [ran] at all
  simpa using all

/-! ## `bsearch` -/

/-- Half of the elements have one binary digit less. -/
theorem size_half_succ {n : ℕ} (positive : 0 < n) : (n / 2).size + 1 ≤ n.size := by
  rw [Nat.succ_le_iff, Nat.lt_size]
  have half : n / 2 < 2 ^ (n / 2).size := Nat.lt_size_self _
  rcases Nat.eq_zero_or_pos (n / 2) with small | large
  · rw [small, Nat.size_zero]
    exact positive
  · have lower : 2 ^ ((n / 2).size - 1) ≤ n / 2 := Nat.lt_size.mp (by have := Nat.size_pos.mpr large; omega)
    have split : 2 ^ (n / 2).size = 2 * 2 ^ ((n / 2).size - 1) := by
      rw [← Nat.pow_succ', Nat.succ_eq_add_one, Nat.sub_add_cancel (Nat.size_pos.mpr large)]
    omega

/-- The calls compare the key with elements in front of a bound. -/
def KeyCalls (key base size bound : ℕ) (calls : List (ℕ × ℕ)) : Prop :=
  ∀ call ∈ calls, ∃ i < bound, call = (key, base + i * size)

/-- One turn of the loop, given what the comparison returns. -/
theorem bsearchLoop_turn {compar : Compar σ} {memory : Memory} {key base : ℕ} {l r : BitVec 32} {state after : σ}
    {cmp : ℤ} (order : l < r)
    (called : compar state memory key (base + (l + (r - l) / 2).toNat * size) = (cmp, after)) :
    bsearchLoop compar memory key base size l r state =
      if cmp = 0 then (some (base + (l + (r - l) / 2).toNat * size), after)
      else if cmp < 0 then bsearchLoop compar memory key base size l (l + (r - l) / 2) after
      else bsearchLoop compar memory key base size (l + (r - l) / 2 + 1) r after := by
  rw [bsearchLoop, if_pos order]
  simp only [called]

theorem logging_eq {compar : Compar σ} {state after : σ} {memory : Memory} {a b : ℕ} {cmp : ℤ}
    (called : compar state memory a b = (cmp, after)) (calls : List (ℕ × ℕ)) :
    logging compar (calls, state) memory a b = (cmp, calls ++ [(a, b)], after) := by
  simp only [logging, called]

theorem bsearchLoop_logging (compar : Compar σ) (memory : Memory) (key base size : ℕ) (l r : BitVec 32)
    (calls : List (ℕ × ℕ)) (state : σ) :
    ∃ more, bsearchLoop (logging compar) memory key base size l r (calls, state) =
        ((bsearchLoop compar memory key base size l r state).1, calls ++ more,
          (bsearchLoop compar memory key base size l r state).2) ∧
      more.length ≤ (r.toNat - l.toNat).size ∧ KeyCalls key base size r.toNat more := by
  have one {l r : BitVec 32} (order : l < r) :
      KeyCalls key base size r.toNat [(key, base + (l + (r - l) / 2).toNat * size)] := by
    have less : l.toNat < r.toNat := order
    intro call member
    refine ⟨_, ?_, List.mem_singleton.mp member⟩
    rw [midpoint_toNat order]
    omega
  -- Both halves have at most half of the elements.
  have fewer {l r : BitVec 32} (order : l < r) {count : ℕ} (bound : count ≤ (r.toNat - l.toNat) / 2)
      {more : List (ℕ × ℕ)} (few : more.length ≤ count.size) (call : ℕ × ℕ) :
      ([call] ++ more).length ≤ (r.toNat - l.toNat).size := by
    have less : l.toNat < r.toNat := order
    have digits := size_half_succ (show 0 < r.toNat - l.toNat by omega)
    have shorter := few.trans (Nat.size_le_size bound)
    rw [List.length_append, List.length_singleton]
    omega
  induction l, r, state using bsearchLoop.induct compar memory key base size generalizing calls with
  | case1 l r state order m elem after called =>
    have less : l.toNat < r.toNat := order
    refine ⟨[(key, elem)], ?_, fewer order (Nat.zero_le _) (Nat.zero_le _) _, one order⟩
    rw [bsearchLoop_turn order called, bsearchLoop_turn order (logging_eq called calls), if_pos rfl, if_pos rfl]
  | case2 l r state order m elem cmp after called different less ih =>
    have range : l.toNat < r.toNat := order
    have middle : m.toNat = l.toNat + (r.toNat - l.toNat) / 2 := midpoint_toNat order
    obtain ⟨more, ran, few, within⟩ := ih (calls ++ [(key, elem)])
    refine ⟨[(key, elem)] ++ more, ?_, fewer order (by omega) few _, ?_⟩
    · rw [bsearchLoop_turn order called, bsearchLoop_turn order (logging_eq called calls), if_neg different,
        if_neg different, if_pos less, if_pos less, ran, List.append_assoc]
    · intro call member
      rcases List.mem_append.mp member with first | later
      · exact one order call first
      · obtain ⟨i, bound, same⟩ := within call later
        exact ⟨i, by omega, same⟩
  | case3 l r state order m elem cmp after called different notLess ih =>
    have range : l.toNat < r.toNat := order
    have middle : (m + 1).toNat = l.toNat + (r.toNat - l.toNat) / 2 + 1 := midpoint_succ_toNat order
    obtain ⟨more, ran, few, within⟩ := ih (calls ++ [(key, elem)])
    refine ⟨[(key, elem)] ++ more, ?_, fewer order (by omega) few _, ?_⟩
    · rw [bsearchLoop_turn order called, bsearchLoop_turn order (logging_eq called calls), if_neg different,
        if_neg different, if_neg notLess, if_neg notLess, ran, List.append_assoc]
    · intro call member
      rcases List.mem_append.mp member with first | later
      · exact one order call first
      · exact within call later
  | case4 l r state empty =>
    refine ⟨[], ?_, Nat.zero_le _, by intro call member; cases member⟩
    rw [bsearchLoop, if_neg empty, bsearchLoop, if_neg empty, List.append_nil]

/-- Whatever the comparison function returns, `bsearch` calls it with the key and an element of the array, and no more
often than the number of elements has binary digits. -/
theorem bsearch_calls (compar : Compar σ) (memory : Memory) (key base : ℕ) (nmemb : BitVec 32) (size : ℕ)
    (state : σ) :
    ∃ calls, bsearch (logging compar) memory key base nmemb size ([], state) =
        ((bsearch compar memory key base nmemb size state).1, calls,
          (bsearch compar memory key base nmemb size state).2) ∧
      calls.length ≤ nmemb.toNat.size ∧ KeyCalls key base size nmemb.toNat calls := by
  have counted := bsearchLoop_logging compar memory key base size 0 nmemb [] state
  exact counted

end CLite
