import Mathlib.Data.List.Perm.Basic
import Mathlib.Data.List.Nodup
import Mathlib.Logic.Equiv.Basic
import Mathlib.Tactic.Common

/-! # Rearranging an array in place

An array is a map from indices to elements. An algorithm that only exchanges elements of a range leaves the array
composed with a permutation that fixes every index outside the range, so that what it keeps and what it leaves
alone follow at once. Exchanging the elements of a scan that have a property with those that do not splits the
scanned part, and two ordered parts around a pivot are ordered as a whole.
-/

namespace Rearrangement

variable {α : Type*} {lo hi i j k : ℕ} {a b c : ℕ → α}

/-- The elements from `lo` up to `hi` are put in another order, and the others stay where they are. -/
def Rearranges (lo hi : ℕ) (a b : ℕ → α) : Prop :=
  ∃ π : Equiv.Perm ℕ, (∀ k, k < lo ∨ hi ≤ k → π k = k) ∧ b = a ∘ π

theorem Rearranges.refl (lo hi : ℕ) (a : ℕ → α) : Rearranges lo hi a a :=
  ⟨Equiv.refl ℕ, fun _ _ => rfl, rfl⟩

theorem Rearranges.trans (first : Rearranges lo hi a b) (second : Rearranges lo hi b c) : Rearranges lo hi a c := by
  obtain ⟨π, fixed, rfl⟩ := first
  obtain ⟨ρ, fixed', rfl⟩ := second
  refine ⟨ρ.trans π, ?_, rfl⟩
  intro k outside
  rw [Equiv.trans_apply, fixed' k outside, fixed k outside]

/-- A rearrangement of a range is one of every range around it. -/
theorem Rearranges.mono {lo' hi' : ℕ} (inner : Rearranges lo hi a b) (lower : lo' ≤ lo) (upper : hi ≤ hi') :
    Rearranges lo' hi' a b := by
  obtain ⟨π, fixed, rfl⟩ := inner
  exact ⟨π, fun k outside => fixed k (by omega), rfl⟩

theorem rearranges_swap (a : ℕ → α) (first : lo ≤ i ∧ i < hi) (second : lo ≤ j ∧ j < hi) :
    Rearranges lo hi a (a ∘ Equiv.swap i j) :=
  ⟨Equiv.swap i j, fun _ _ => Equiv.swap_apply_of_ne_of_ne (by omega) (by omega), rfl⟩

theorem Rearranges.outside (one : Rearranges lo hi a b) (outside : k < lo ∨ hi ≤ k) : b k = a k := by
  obtain ⟨π, fixed, rfl⟩ := one
  rw [Function.comp_apply, fixed k outside]

/-- A permutation that fixes the indices outside a range keeps those inside it. -/
theorem mapsTo_of_fixed {π : Equiv.Perm ℕ} (fixed : ∀ k, k < lo ∨ hi ≤ k → π k = k) (lower : lo ≤ k)
    (upper : k < hi) : lo ≤ π k ∧ π k < hi := by
  by_contra outside
  have same : π k = k := π.injective (fixed (π k) (by omega))
  omega

/-- What all elements of the range have, they have in every order. -/
theorem Rearranges.forall_range {p : α → Prop} (one : Rearranges lo hi a b) (all : ∀ k, lo ≤ k → k < hi → p (a k)) :
    ∀ k, lo ≤ k → k < hi → p (b k) := by
  obtain ⟨π, fixed, rfl⟩ := one
  intro k lower upper
  obtain ⟨lower', upper'⟩ := mapsTo_of_fixed fixed lower upper
  exact all (π k) lower' upper'

/-- A rearranged array lists a permutation of its elements. -/
theorem Rearranges.perm {n : ℕ} (one : Rearranges 0 n a b) : ((List.range n).map b).Perm ((List.range n).map a) := by
  obtain ⟨π, fixed, rfl⟩ := one
  have indices : ((List.range n).map π).Perm (List.range n) := by
    refine (List.perm_ext_iff_of_nodup (List.nodup_range.map π.injective) List.nodup_range).mpr fun k => ?_
    rw [List.mem_map, List.mem_range]
    constructor
    · rintro ⟨index, member, rfl⟩
      exact (mapsTo_of_fixed fixed (Nat.zero_le _) (List.mem_range.mp member)).2
    · intro below
      have fixed' : ∀ k, k < 0 ∨ n ≤ k → π.symm k = k := by
        intro k outside
        rw [Equiv.symm_apply_eq, fixed k outside]
      refine ⟨π.symm k, List.mem_range.mpr (mapsTo_of_fixed fixed' (Nat.zero_le _) below).2, ?_⟩
      exact π.apply_symm_apply k
  rw [← List.map_map]
  exact indices.map a

/-! ## Scanning -/

/-- From `lo` up to `i` the elements have the property, and from there up to `j` they do not. -/
def Split (p : α → Prop) (lo i j : ℕ) (a : ℕ → α) : Prop :=
  (∀ k, lo ≤ k → k < i → p (a k)) ∧ ∀ k, i ≤ k → k < j → ¬ p (a k)

variable {p : α → Prop}

theorem split_start (p : α → Prop) (lo : ℕ) (a : ℕ → α) : Split p lo lo lo a :=
  ⟨fun _ _ _ => by omega, fun _ _ _ => by omega⟩

theorem Split.skip (split : Split p lo i j a) (without : ¬ p (a j)) : Split p lo i (j + 1) a := by
  refine ⟨split.1, ?_⟩
  intro k lower upper
  rcases Nat.lt_succ_iff_lt_or_eq.mp upper with earlier | rfl
  · exact split.2 k lower earlier
  · exact without

/-- An element with the property is exchanged with the first one without it. -/
theorem Split.exchange (split : Split p lo i j a) (order : i ≤ j) (has : p (a j)) :
    Split p lo (i + 1) (j + 1) (a ∘ Equiv.swap i j) := by
  constructor
  · intro k lower upper
    rw [Function.comp_apply]
    rcases Nat.lt_succ_iff_lt_or_eq.mp upper with earlier | rfl
    · rw [Equiv.swap_apply_of_ne_of_ne (by omega) (by omega)]
      exact split.1 k lower earlier
    · rw [Equiv.swap_apply_left]
      exact has
  · intro k lower upper
    rw [Function.comp_apply]
    rcases Nat.lt_succ_iff_lt_or_eq.mp upper with earlier | rfl
    · rw [Equiv.swap_apply_of_ne_of_ne (by omega) (by omega)]
      exact split.2 k (by omega) earlier
    · rw [Equiv.swap_apply_right]
      exact split.2 i (Nat.le_refl i) (by omega)

/-! ## Order -/

/-- The elements from `lo` up to `hi` are in order. -/
def Ordered (le : α → α → Prop) (lo hi : ℕ) (a : ℕ → α) : Prop :=
  ∀ i j, lo ≤ i → i < j → j < hi → le (a i) (a j)

variable {le : α → α → Prop} {mid : ℕ}

theorem ordered_of_short (le : α → α → Prop) (short : hi ≤ lo + 1) (a : ℕ → α) : Ordered le lo hi a :=
  fun _ _ _ _ _ => by omega

/-- Two ordered parts, one below the element between them and one above it. -/
theorem Ordered.around (trans : ∀ x y z, le x y → le y z → le x z) (left : Ordered le lo mid a)
    (right : Ordered le (mid + 1) hi a) (below : ∀ k, lo ≤ k → k < mid → le (a k) (a mid))
    (above : ∀ k, mid + 1 ≤ k → k < hi → le (a mid) (a k)) : Ordered le lo hi a := by
  intro i j lower order upper
  rcases Nat.lt_trichotomy j mid with before | rfl | behind
  · exact left i j lower order before
  · exact below i lower order
  · rcases Nat.lt_trichotomy i mid with before' | rfl | behind'
    · exact trans _ _ _ (below i lower before') (above j behind upper)
    · exact above j behind upper
    · exact right i j behind' order upper

/-- Order depends on the elements of the range only. -/
theorem Ordered.congr (ordered : Ordered le lo hi a) (same : ∀ k, lo ≤ k → k < hi → b k = a k) :
    Ordered le lo hi b := by
  intro i j lower order upper
  rw [same i lower (by omega), same j (by omega) upper]
  exact ordered i j lower order upper

theorem Ordered.pairwise {n : ℕ} (ordered : Ordered le 0 n a) : ((List.range n).map a).Pairwise le := by
  rw [List.pairwise_map]
  refine List.pairwise_lt_range.imp_of_mem ?_
  intro i j _ member order
  exact ordered i j (Nat.zero_le i) order (List.mem_range.mp member)

end Rearrangement
