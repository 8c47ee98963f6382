import CLite.Spec.GlobPaths

/-! # How often `glob` allocates

A vector of strings takes one allocation for each string, and one more when it is empty and whenever its capacity
of 16, 32, 64 and so on is used up. What a call collects therefore takes a number of allocations that depends on
the file system and the arguments alone.
-/

namespace CLite

/-- The capacity of a vector of `n` strings: 16 at first, and doubled when it is used up. -/
def capacityFor : ℕ → ℕ
  | 0 => 0
  | n + 1 =>
      if capacityFor n < n + 1 then if capacityFor n = 0 then 16 else capacityFor n * 2
      else capacityFor n

/-- The allocations that a vector of `n` strings has taken. -/
def allocationsFor : ℕ → ℕ
  | 0 => 0
  | n + 1 => allocationsFor n + (if capacityFor n < n + 1 then 1 else 0) + 1

/-- There is room for the strings in a new vector, and memory for them from the first allocation on. -/
def SeedsPushed (succeeds : ℕ → Bool) (strings : List CString) : Prop :=
  strings.length ≤ GLOB_MAX_MATCHES ∧ ∀ k < allocationsFor strings.length, succeeds k = true

variable (fs : FileSystem) (opts : GlobOptions)

/-- The allocations for the levels of the expansion. -/
def levelAllocations : List CString → List CString → ℕ
  | [], _ => 0
  | comp :: rest, dirs =>
      if comp = [] then levelAllocations rest dirs
      else
        allocationsFor (dirs.flatMap (levelPaths fs opts (rest = []) comp)).length +
          levelAllocations rest (dirs.flatMap (levelPaths fs opts (rest = []) comp))

/-- The allocations for everything but the results: the starting point and the levels of a pattern that is
expanded. -/
def expansionAllocations (pattern : CString) : ℕ :=
  if globHasMeta opts.noescape pattern = false ∨ bufferSize ≤ pattern.length then 0
  else allocationsFor 1 + levelAllocations fs opts (splitComponents opts.noescape pattern) [startPath pattern]

/-- The allocations that collecting the results takes, when there is room for them. -/
def collectAllocations (pattern : CString) (seeds : List CString) : ℕ :=
  expansionAllocations fs opts pattern + allocationsFor (seeds ++ matchesOf fs opts pattern).length

end CLite
