import Mathlib.Data.BitVec

/-! # Pseudo-random numbers

`rand` and `srand` of `stdlib.c`, and `random` and `srandom` of `compat.c`, which call them. The state is the
one `unsigned long` they share, of 32 bits.
-/

namespace CLite

/-- `RAND_MAX`. -/
def randMax : ℕ := 32767

/-- `next_rand` before the first call. -/
def initialNextRand : BitVec 32 := 1

/-- The result of `rand`, and the state it leaves. -/
def rand (nextRand : BitVec 32) : BitVec 32 × BitVec 32 :=
  let nextRand := nextRand * 1103515245 + 12345
  (nextRand / 65536 % BitVec.ofNat 32 (randMax + 1), nextRand)

/-- The state `srand` leaves. -/
def srand (seed : BitVec 32) : BitVec 32 := seed

def random (nextRand : BitVec 32) : BitVec 32 × BitVec 32 := rand nextRand

def srandom (seed : BitVec 32) : BitVec 32 := srand seed

/-- The state after a number of calls of `rand` or `random`. -/
def nextRandAfter (nextRand : BitVec 32) : ℕ → BitVec 32
  | 0 => nextRand
  | n + 1 => (rand (nextRandAfter nextRand n)).2

/-- The result of the call after a number of others. -/
def randAfter (nextRand : BitVec 32) (n : ℕ) : ℕ := (rand (nextRandAfter nextRand n)).1.toNat

end CLite
