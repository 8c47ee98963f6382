import CLite.Lib.ByteMemory
import Mathlib.Logic.Function.Basic

/-! # Sorting and searching

`qsort` and `bsearch` of `stdlib.c`, on arrays in memory. An array lies in the address space, so that no address
in it wraps; the bounds of `bsearch` are machine words. A comparison function gets two pointers. It may read all of
memory and keep a state of its own between its calls, and it changes neither the array nor the bounds.
-/

namespace CLite

open ByteMemory

variable {σ : Type}

/-- A comparison function: what it returns for two pointers, and its state after the call. -/
abbrev Compar (σ : Type) := σ → Memory → ℕ → ℕ → ℤ × σ

/-- `swap`: the memory after the first `n` iterations. -/
def swap (memory : Memory) (a b : ℕ) : ℕ → Memory
  | 0 => memory
  | n + 1 =>
    let swapped := swap memory a b n
    let tmp := swapped (a + n)
    Function.update (Function.update swapped (a + n) (swapped (b + n))) (b + n) tmp

/-- The loop of `qsort`: `i`, the memory and the state of the comparison after the first `j` iterations. -/
def partitionLoop (compar : Compar σ) (b size pivot : ℕ) (memory : Memory) (state : σ) : ℕ → ℕ × Memory × σ
  | 0 => (0, memory, state)
  | j + 1 =>
    let (i, memory, state) := partitionLoop compar b size pivot memory state j
    let (cmp, state) := compar state memory (b + j * size) pivot
    if cmp ≤ 0 then (i + 1, swap memory (b + i * size) (b + j * size) size, state) else (i, memory, state)

theorem partitionLoop_le {compar : Compar σ} {b size pivot i j : ℕ} {memory memory' : Memory} {state state' : σ}
    (scanned : partitionLoop compar b size pivot memory state j = (i, memory', state')) : i ≤ j := by
  suffices bound : (partitionLoop compar b size pivot memory state j).1 ≤ j by rwa [scanned] at bound
  clear scanned
  induction j with
  | zero => exact Nat.le_refl 0
  | succ j ih =>
    rw [partitionLoop]
    dsimp only
    split
    · exact Nat.succ_le_succ ih
    · exact Nat.le_succ_of_le ih

/-- The memory and the state of the comparison after `qsort`. -/
def qsort (compar : Compar σ) (size base nmemb : ℕ) (memory : Memory) (state : σ) : Memory × σ :=
  if nmemb < 2 ∨ size = 0 then (memory, state)
  else
    let pivot := base + (nmemb - 1) * size
    match _ : partitionLoop compar base size pivot memory state (nmemb - 1) with
    | (i, memory, state) =>
      let memory := swap memory (base + i * size) pivot size
      let (memory, state) := if 1 < i then qsort compar size base i memory state else (memory, state)
      if 1 < nmemb - i - 1 then qsort compar size (base + (i + 1) * size) (nmemb - i - 1) memory state
      else (memory, state)
termination_by nmemb
decreasing_by
  all_goals
    have bound := partitionLoop_le ‹_›
    omega

/-- The midpoint does not wrap. -/
theorem midpoint_toNat {l r : BitVec 32} (order : l < r) :
    (l + (r - l) / 2).toNat = l.toNat + (r.toNat - l.toNat) / 2 := by
  have bound := r.isLt
  have less : l.toNat < r.toNat := order
  have width : (r - l).toNat = r.toNat - l.toNat := BitVec.toNat_sub_of_le (Nat.le_of_lt less)
  have half : ((r - l) / 2).toNat = (r.toNat - l.toNat) / 2 := by
    rw [BitVec.toNat_udiv, width]
    rfl
  rw [BitVec.toNat_add, half, Nat.mod_eq_of_lt (by omega)]

theorem midpoint_succ_toNat {l r : BitVec 32} (order : l < r) :
    (l + (r - l) / 2 + 1).toNat = l.toNat + (r.toNat - l.toNat) / 2 + 1 := by
  have bound := r.isLt
  have less : l.toNat < r.toNat := order
  have one : (1 : BitVec 32).toNat = 1 := rfl
  rw [BitVec.toNat_add, midpoint_toNat order, one, Nat.mod_eq_of_lt (by omega)]

/-- The loop of `bsearch` over the elements from `l` up to `r`; `none` is a null pointer. -/
def bsearchLoop (compar : Compar σ) (memory : Memory) (key base size : ℕ) (l r : BitVec 32) (state : σ) :
    Option ℕ × σ :=
  if l < r then
    let m := l + (r - l) / 2
    let elem := base + m.toNat * size
    let (cmp, state) := compar state memory key elem
    if cmp = 0 then (some elem, state)
    else if cmp < 0 then bsearchLoop compar memory key base size l m state
    else bsearchLoop compar memory key base size (m + 1) r state
  else (none, state)
termination_by r.toNat - l.toNat
decreasing_by
  · have less : l.toNat < r.toNat := by assumption
    rw [midpoint_toNat (by assumption)]
    omega
  · have less : l.toNat < r.toNat := by assumption
    rw [midpoint_succ_toNat (by assumption)]
    omega

def bsearch (compar : Compar σ) (memory : Memory) (key base : ℕ) (nmemb : BitVec 32) (size : ℕ) (state : σ) :
    Option ℕ × σ :=
  bsearchLoop compar memory key base size 0 nmemb state

end CLite
