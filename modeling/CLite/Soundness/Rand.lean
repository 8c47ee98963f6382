import CLite.Lib.Congruential
import CLite.Model.Rand

/-! # The period of `rand`

The state runs through all 32-bit values, so over a whole period each result occurs equally often. The low bits of
the results are the middle bits of the state and repeat much earlier.
-/

namespace CLite

open Congruential

theorem toNat_nextRandAfter (nextRand : BitVec 32) (n : ℕ) :
    (nextRandAfter nextRand n).toNat = term 1103515245 12345 nextRand.toNat n % 2 ^ 32 := by
  induction n with
  | zero => exact (Nat.mod_eq_of_lt nextRand.isLt).symm
  | succ n ih =>
    rw [nextRandAfter, rand, BitVec.toNat_add, BitVec.toNat_mul, ih, term,
      show (1103515245 : BitVec 32).toNat = 1103515245 from rfl, show (12345 : BitVec 32).toNat = 12345 from rfl]
    omega

/-- The sequence that the results are cut out of: it starts with the state after one call. -/
def randTerm (nextRand : BitVec 32) : ℕ → ℕ :=
  term 1103515245 12345 (term 1103515245 12345 nextRand.toNat 1)

theorem randAfter_eq (nextRand : BitVec 32) (n : ℕ) :
    randAfter nextRand n = randTerm nextRand n % 2 ^ 32 / 65536 % 32768 := by
  rw [randTerm, ← term_add, Nat.add_comm, ← toNat_nextRandAfter, randAfter, rand]
  change (nextRandAfter nextRand (n + 1) / 65536 % BitVec.ofNat 32 32768).toNat = _
  rw [BitVec.toNat_umod, BitVec.toNat_udiv]
  rfl

theorem testBit_randAfter (nextRand : BitVec 32) (n i : ℕ) :
    (randAfter nextRand n).testBit i = (decide (i < 15) && (randTerm nextRand n).testBit (i + 16)) := by
  rw [randAfter_eq, show (32768 : ℕ) = 2 ^ 15 by norm_num, show (65536 : ℕ) = 2 ^ 16 by norm_num,
    Nat.testBit_mod_two_pow, Nat.testBit_div_two_pow, Nat.testBit_mod_two_pow]
  by_cases small : i < 15
  · have inside : i + 16 < 32 := by omega
    simp only [small, inside, decide_true, Bool.true_and]
  · simp only [small, decide_false, Bool.false_and]

theorem periodic_testBit_randTerm (nextRand : BitVec 32) (k p : ℕ) :
    Function.Periodic (fun n => (randTerm nextRand n).testBit k) p ↔ 2 ^ (k + 1) ∣ p :=
  periodic_testBit_iff (by norm_num) (by norm_num) _ k p

/-- From any state, each result from zero to `RAND_MAX` is returned `2 ^ 17` times by any `2 ^ 32` calls in a row. -/
theorem rand_equidistributed (nextRand : BitVec 32) (first : ℕ) (value : Fin (randMax + 1)) :
    ((Finset.Ico first (first + 2 ^ 32)).filter fun n => randAfter nextRand n = value).card = 2 ^ 17 := by
  have residues := card_terms (a := 1103515245) (c := 12345) (by norm_num) (by norm_num)
    (term 1103515245 12345 nextRand.toNat 1) 32 first fun r => r / 65536 % 32768 = value
  have digits := card_middle_digit 2 32768 65536 value value.isLt (by norm_num)
  simp only [randAfter_eq]
  exact residues.trans digits

/-- The low bits of the results, one or more, repeat with the multiples of a power of two far below the period of
the state and with nothing else: the lowest bit after `2 ^ 17` calls. -/
theorem rand_low_bits_period (nextRand : BitVec 32) (bits : Fin 15) (p : ℕ) :
    Function.Periodic (fun n => randAfter nextRand n % 2 ^ (bits.val + 1)) p ↔ 2 ^ (17 + bits.val) ∣ p := by
  constructor
  · intro periodic
    have highest : Function.Periodic (fun n => (randTerm nextRand n).testBit (bits + 16)) p := by
      intro n
      have bit := congrArg (Nat.testBit · bits) (periodic n)
      simpa only [Nat.testBit_mod_two_pow, testBit_randAfter, Nat.lt_succ_self, bits.isLt, decide_true,
        Bool.true_and] using bit
    rw [periodic_testBit_randTerm] at highest
    rwa [Nat.add_assoc, Nat.add_comm] at highest
  · intro divides n
    apply Nat.eq_of_testBit_eq
    intro i
    simp only [Nat.testBit_mod_two_pow, testBit_randAfter]
    by_cases inside : i < bits.val + 1
    · have lower : 2 ^ (i + 16 + 1) ∣ p := Dvd.dvd.trans (pow_dvd_pow 2 (by omega)) divides
      have bit := (periodic_testBit_randTerm nextRand (i + 16) p).mpr lower n
      dsimp only at bit
      rw [bit]
    · simp only [inside, decide_false, Bool.false_and]

end CLite
