import Mathlib.Algebra.Ring.Parity
import Mathlib.Algebra.Ring.Periodic
import Mathlib.Data.Finset.Card
import Mathlib.Data.Nat.Factorization.Basic
import Mathlib.Order.Interval.Finset.Nat
import Mathlib.Tactic.Ring
import Mathlib.Tactic.LinearCombination

/-! # Linear congruential sequences modulo a power of two

The sequence `x, a x + c, a (a x + c) + c, …` is taken over the natural numbers and reduced afterwards, so that
one sequence serves every modulus. With `a = 1` modulo four and `c` odd, two of its terms agree modulo `2 ^ k`
exactly when their positions do. Hence the terms run through all residues, and bit `k` has period `2 ^ (k + 1)`.
-/

namespace Congruential

/-- The term at a position. -/
def term (a c x : ℕ) : ℕ → ℕ
  | 0 => x
  | n + 1 => a * term a c x n + c

theorem term_add (a c x n m : ℕ) : term a c x (n + m) = term a c (term a c x n) m := by
  induction m with
  | zero => rfl
  | succ m ih => rw [← Nat.add_assoc, term, ih, term]

/-- A term differs from the first by a multiple of the sum of powers `1 + a + … + a ^ (n - 1)`. -/
theorem term_eq (b c x n : ℕ) : term (b + 1) c x n = x + term (b + 1) 1 0 n * (b * x + c) := by
  induction n with
  | zero => simp [term]
  | succ n ih =>
    rw [term, term, ih]
    ring

variable {a c : ℕ}

section Sums

variable (multiplier : a % 4 = 1)
include multiplier

theorem pow_mod_four (n : ℕ) : a ^ n % 4 = 1 := by
  rw [Nat.pow_mod, multiplier, Nat.one_pow]

omit multiplier in
theorem sum_double (a n : ℕ) : term a 1 0 (n + n) = term a 1 0 n * (a ^ n + 1) := by
  have shifted : ∀ m x, term a 1 x m = a ^ m * x + term a 1 0 m := by
    intro m x
    induction m with
    | zero => simp [term]
    | succ m ih => rw [term, ih, term, pow_succ]; ring
  rw [term_add, shifted]
  ring

theorem sum_odd (n : ℕ) : term a 1 0 (n + n + 1) % 2 = 1 := by
  have power := pow_mod_four multiplier n
  have even : (a ^ n + 1) % 2 = 0 := by omega
  rw [term, sum_double, Nat.add_mod, Nat.mul_mod, Nat.mul_mod (term a 1 0 n), even]
  simp

theorem two_pow_dvd_sum_iff (k n : ℕ) : 2 ^ k ∣ term a 1 0 n ↔ 2 ^ k ∣ n := by
  induction k generalizing n with
  | zero => simp
  | succ k ih =>
    rcases Nat.even_or_odd' n with ⟨half, rfl | rfl⟩
    · obtain ⟨odd, split⟩ : ∃ odd, a ^ half + 1 = 2 * (2 * odd + 1) := by
        have power := pow_mod_four multiplier half
        exact ⟨a ^ half / 4, by omega⟩
      have coprime : (2 ^ k).Coprime (2 * odd + 1) := by
        apply Nat.Coprime.pow_left
        rw [Nat.coprime_two_left]
        exact odd_two_mul_add_one odd
      rw [two_mul, sum_double, split, ← two_mul, pow_succ', mul_left_comm, Nat.mul_dvd_mul_iff_left two_pos,
        Nat.mul_dvd_mul_iff_left two_pos, coprime.dvd_mul_right, ih]
    · have odd := sum_odd multiplier half
      rw [two_mul]
      constructor
      · intro divides
        have two := Dvd.dvd.trans (dvd_pow_self 2 (Nat.succ_ne_zero k)) divides
        omega
      · intro divides
        have two := Dvd.dvd.trans (dvd_pow_self 2 (Nat.succ_ne_zero k)) divides
        omega

end Sums

section Period

variable (multiplier : a % 4 = 1) (increment : c % 2 = 1)
include multiplier increment

theorem term_modEq_first_iff (x k n : ℕ) : term a c x n ≡ x [MOD 2 ^ k] ↔ 2 ^ k ∣ n := by
  obtain ⟨b, rfl⟩ : ∃ b, a = b + 1 := ⟨a - 1, by omega⟩
  have coprime : (2 ^ k).Coprime (b * x + c) := by
    apply Nat.Coprime.pow_left
    rw [Nat.coprime_two_left, Nat.odd_iff, Nat.add_mod, Nat.mul_mod, increment, show b % 2 = 0 by omega]
    simp
  rw [term_eq, Nat.ModEq.comm, Nat.modEq_iff_dvd' (Nat.le_add_right _ _), Nat.add_sub_cancel_left,
    coprime.dvd_mul_right, two_pow_dvd_sum_iff multiplier]

/-- Two terms agree modulo a power of two exactly when their positions do. -/
theorem term_modEq_iff (x k n m : ℕ) : term a c x n ≡ term a c x m [MOD 2 ^ k] ↔ n ≡ m [MOD 2 ^ k] := by
  rcases Nat.le_total n m with le | le
  · obtain ⟨d, rfl⟩ := Nat.exists_eq_add_of_le le
    rw [term_add, Nat.ModEq.comm, term_modEq_first_iff multiplier increment, Nat.modEq_iff_dvd' le,
      Nat.add_sub_cancel_left]
  · obtain ⟨d, rfl⟩ := Nat.exists_eq_add_of_le le
    rw [term_add, term_modEq_first_iff multiplier increment, Nat.ModEq.comm, Nat.modEq_iff_dvd' le,
      Nat.add_sub_cancel_left]

theorem injOn_term_mod (x k n : ℕ) :
    Set.InjOn (fun i => term a c x i % 2 ^ k) (Finset.Ico n (n + 2 ^ k)) := by
  intro i hi j hj same
  rw [Finset.coe_Ico, Set.mem_Ico] at hi hj
  have positions := (term_modEq_iff multiplier increment x k i j).mp same
  apply Nat.ModEq.eq_of_abs_lt positions
  rw [abs_lt]
  omega

theorem image_term_mod (x k n : ℕ) :
    (Finset.Ico n (n + 2 ^ k)).image (fun i => term a c x i % 2 ^ k) = Finset.range (2 ^ k) := by
  apply Finset.eq_of_subset_of_card_le
  · intro residue taken
    obtain ⟨i, -, rfl⟩ := Finset.mem_image.mp taken
    exact Finset.mem_range.mpr (Nat.mod_lt _ (Nat.two_pow_pos k))
  · rw [Finset.card_image_of_injOn (injOn_term_mod multiplier increment x k n), Nat.card_Ico, Finset.card_range]
    omega

/-- Among `2 ^ k` terms in a row, a property of residues holds as often as among the residues. -/
theorem card_terms (x k n : ℕ) (p : ℕ → Prop) [DecidablePred p] :
    ((Finset.Ico n (n + 2 ^ k)).filter fun i => p (term a c x i % 2 ^ k)).card =
      ((Finset.range (2 ^ k)).filter p).card := by
  rw [← image_term_mod multiplier increment x k n, Finset.filter_image, Finset.card_image_of_injOn]
  apply (injOn_term_mod multiplier increment x k n).mono
  exact Finset.coe_subset.mpr (Finset.filter_subset _ _)

/-- Bit `k` of a term is inverted `2 ^ k` positions later. -/
theorem testBit_term_add (x k n : ℕ) :
    (term a c x (n + 2 ^ k)).testBit k = !(term a c x n).testBit k := by
  have low : term a c x (n + 2 ^ k) ≡ term a c x n [MOD 2 ^ k] := by
    rw [term_modEq_iff multiplier increment]
    exact Nat.add_modEq_right
  have high : ¬ term a c x (n + 2 ^ k) ≡ term a c x n [MOD 2 ^ (k + 1)] := by
    rw [term_modEq_iff multiplier increment, Nat.ModEq.comm, Nat.modEq_iff_dvd' (Nat.le_add_right _ _),
      Nat.add_sub_cancel_left, Nat.pow_dvd_pow_iff_le_right (Nat.lt_succ_self 1)]
    omega
  apply Bool.eq_not_of_ne
  intro same
  apply high
  apply Nat.eq_of_testBit_eq
  intro i
  rw [Nat.testBit_mod_two_pow, Nat.testBit_mod_two_pow]
  rcases Nat.lt_trichotomy i k with below | rfl | above
  · have bit := congrArg (Nat.testBit · i) low
    simp only [Nat.testBit_mod_two_pow, below, decide_true, Bool.true_and] at bit
    rw [bit]
  · rw [same]
  · rw [decide_eq_false (by omega)]
    rfl

theorem periodic_testBit (x k : ℕ) :
    Function.Periodic (fun n => (term a c x n).testBit k) (2 ^ (k + 1)) := by
  intro n
  dsimp only
  rw [pow_succ, mul_two, ← Nat.add_assoc, testBit_term_add multiplier increment,
    testBit_term_add multiplier increment, Bool.not_not]

/-- Bit `k` repeats with the multiples of `2 ^ (k + 1)` and with no other period. -/
theorem periodic_testBit_iff (x k p : ℕ) :
    Function.Periodic (fun n => (term a c x n).testBit k) p ↔ 2 ^ (k + 1) ∣ p := by
  have full := periodic_testBit multiplier increment x k
  constructor
  · intro periodic
    by_contra other
    have nonzero : p ≠ 0 := by
      rintro rfl
      exact other (dvd_zero _)
    -- An odd multiple of `2 ^ k` would be a period, and so would `2 ^ k` itself.
    obtain ⟨j, odd, ⟨i, rfl⟩, rfl⟩ := Nat.exists_eq_two_pow_mul_odd nonzero
    have small : j ≤ k := by
      by_contra large
      exact other (Dvd.dvd.mul_right (pow_dvd_pow 2 (by omega)) _)
    have shifted := periodic.nat_mul (2 ^ (k - j)) 0
    have cycles := full.nat_mul i (2 ^ k)
    have inverted := testBit_term_add multiplier increment x k 0
    have length : 2 ^ (k - j) * (2 ^ j * (2 * i + 1)) = 2 ^ k + i * 2 ^ (k + 1) := by
      rw [← mul_assoc, ← pow_add, Nat.sub_add_cancel small]
      ring
    simp only [Nat.cast_id, Nat.zero_add] at shifted cycles inverted
    rw [length, cycles, inverted] at shifted
    exact Bool.not_ne_self _ shifted
  · rintro ⟨q, rfl⟩
    rw [mul_comm]
    exact full.nat_mul q

end Period

/-! ## Digits of residues -/

/-- Of the numbers below `high * base * low`, the same number has each middle digit. -/
theorem card_middle_digit (high base low digit : ℕ) (bound : digit < base) (positive : 0 < low) :
    ((Finset.range (high * (base * low))).filter fun r => r / low % base = digit).card = high * low := by
  have count : (Finset.range high ×ˢ Finset.range low).card = high * low := by
    rw [Finset.card_product, Finset.card_range, Finset.card_range]
  rw [← count]
  -- A number is its high part, its middle digit and its low part.
  have assembled : ∀ h l, l < low → ((h * base + digit) * low + l) / low = h * base + digit := by
    intro h l small
    rw [Nat.mul_comm, Nat.mul_add_div positive, Nat.div_eq_of_lt small, Nat.add_zero]
  have top : ∀ h, (h * base + digit) / base = h := by
    intro h
    rw [Nat.mul_comm, Nat.mul_add_div (by omega), Nat.div_eq_of_lt bound, Nat.add_zero]
  apply Finset.card_nbij' (fun r => (r / low / base, r % low))
    (fun parts => (parts.1 * base + digit) * low + parts.2)
  · intro r member
    simp only [Finset.coe_filter, Finset.mem_range, Set.mem_ofPred_eq] at member
    simp only [Finset.coe_product, Finset.coe_range, Set.mem_prod, Set.mem_Iio]
    refine ⟨?_, Nat.mod_lt _ positive⟩
    rw [Nat.div_div_eq_div_mul, Nat.div_lt_iff_lt_mul (Nat.mul_pos positive (by omega)), Nat.mul_comm low]
    exact member.1
  · rintro ⟨h, l⟩ member
    simp only [Finset.coe_product, Finset.coe_range, Set.mem_prod, Set.mem_Iio] at member
    simp only [Finset.coe_filter, Finset.mem_range, Set.mem_ofPred_eq, assembled h l member.2]
    refine ⟨?_, ?_⟩
    · rw [← Nat.mul_assoc, ← Nat.div_lt_iff_lt_mul positive, assembled h l member.2,
        ← Nat.div_lt_iff_lt_mul (by omega), top]
      exact member.1
    · rw [Nat.mul_comm, Nat.mul_add_mod, Nat.mod_eq_of_lt bound]
  · intro r member
    simp only [Finset.coe_filter, Finset.mem_range, Set.mem_ofPred_eq] at member
    dsimp only
    have middle := Nat.div_add_mod (r / low) base
    rw [member.2, Nat.mul_comm] at middle
    rw [middle, Nat.mul_comm, Nat.div_add_mod]
  · rintro ⟨h, l⟩ member
    simp only [Finset.coe_product, Finset.coe_range, Set.mem_prod, Set.mem_Iio] at member
    simp only [assembled h l member.2, top, Prod.mk.injEq, true_and]
    rw [Nat.mul_comm, Nat.mul_add_mod, Nat.mod_eq_of_lt member.2]

end Congruential
