import CLite.Soundness.Lifetimes

/-! # `glob` when resources are refused

A directory that cannot be opened for want of a descriptor or of memory is passed over, so a call that succeeds may
have found only a part of the matches. With `GLOB_APPEND` the results are copied, and the array and the strings they
are copied from are neither freed nor handed back.
-/

namespace CLite

open Ownership CallRun

variable (system : ResourceSystem) (fs : FileSystem)

/-- What the caller learns from a call without `GLOB_APPEND`. -/
def GlobVerdict (pattern : CString) (flags : BitVec 32) (code : ℕ) (after : OwnedGlob) : Prop :=
  let found := matchesOf fs (globOptions pattern flags) pattern
  (code = 0 ∧ after.texts ≠ [] ∧ Chosen system after.texts found) ∨
    (code = 0 ∧ hasFlag flags GLOB_NOCHECK = true ∧ Chosen system [] found ∧
      after.texts = [globUnescape (hasFlag flags GLOB_NOESCAPE) pattern]) ∨
    (code = GLOB_NOMATCH ∧ Chosen system [] found) ∨
    (code = GLOB_NOSPACE ∧ (system.Generous → ¬ Roomy fs (globOptions pattern flags) pattern []))

/-- Whatever is refused, `glob` without `GLOB_APPEND` returns, and the paths that it hands over are a part of the
matches, in their order; or, under `GLOB_NOCHECK` and if it found none of them, the text of the pattern. They are all
of the matches if nothing is refused, and memory can then run out only by the limit on their number. When `globfree`
has freed them, everything is held that was held before and nothing else, except for one block if memory had run
out. -/
theorem glob_refusals (pattern : CString) (flags : BitVec 32) (pglob : OwnedGlob)
    (short : (globUnescape (hasFlag flags GLOB_NOESCAPE) pattern).length < bufferSize)
    (plain : hasFlag flags GLOB_APPEND = false) (store : Ownership.Store Resource) (distinct : store.held.Nodup) :
    ∃ code after mid freed final lost, globOwned system fs pattern flags pglob store = some ((code, after), mid) ∧
      GlobVerdict system fs pattern flags code after ∧ globfreeOwned after mid = some (freed, final) ∧
      final.held = store.held + lost ∧ lost.card ≤ if code = GLOB_NOSPACE then 1 else 0 := by
  obtain ⟨⟨code, after⟩, left, mid, ran, held, apart, result⟩ :=
    (@globOwned_runs system fs pattern flags pglob short).exec (zero_add store.held).symm distinct
  have seeds : ownedSeeds flags pglob = [] := by rw [ownedSeeds, plain]; rfl
  have settled : ∃ lost, left = after.owned + lost ∧ (lost.card ≤ if code = GLOB_NOSPACE then 1 else 0) ∧
      GlobVerdict system fs pattern flags code after := by
    cases result with
    | found some chosen =>
      rw [seeds, List.nil_append] at chosen
      exact ⟨0, (add_zero _).symm, Nat.zero_le _, .inl ⟨rfl, some, chosen⟩⟩
    | text nocheck chosen text =>
      rw [seeds, List.nil_append] at chosen
      exact ⟨0, (add_zero _).symm, Nat.zero_le _, .inr (.inl ⟨rfl, nocheck, chosen, text⟩)⟩
    | unmatched chosen =>
      rw [seeds, List.nil_append] at chosen
      exact ⟨0, rfl, Nat.zero_le _, .inr (.inr (.inl ⟨rfl, chosen⟩))⟩
    | nospace reason few _ =>
      rw [seeds] at reason
      obtain ⟨few, empty⟩ := few plain
      exact ⟨left, by rw [OwnedGlob.owned_eq_zero empty, zero_add], few, .inr (.inr (.inr ⟨rfl, reason⟩))⟩
  obtain ⟨lost, rfl, few, truthful⟩ := settled
  rw [add_assoc] at held
  obtain ⟨freed, none, final, cleared, rest, -, rfl, -⟩ := (globfreeOwned_runs after).exec held apart
  refine ⟨code, after, mid, freed, final, lost, ran, truthful, cleared, ?_, few⟩
  rw [rest, zero_add, add_comm]

/-- There is memory for the array of the starting point but not for its text. -/
theorem glob_refusals_tight :
    ∃ code after mid freed final lost,
      globOwned ⟨pool [], pool [7]⟩ (oneEntry .other) [chr '*'] 0 ⟨0, none, 0⟩ ⟨{.block 3}, 0⟩ =
        some ((code, after), mid) ∧
      GlobVerdict ⟨pool [], pool [7]⟩ (oneEntry .other) [chr '*'] 0 code after ∧
      globfreeOwned after mid = some (freed, final) ∧
      final.held = {.block 3} + lost ∧ lost.card ≤ if code = GLOB_NOSPACE then 1 else 0 :=
  glob_refusals _ _ _ _ _ (by decide) (by decide) _ (by decide)

/-! ## Appending -/

/-- A `glob_t` that is used again and again, the values of it that successful calls have replaced, and the number of
calls that were not successful. -/
structure Appending where
  pglob : OwnedGlob
  replaced : List OwnedGlob
  failures : ℕ
  store : Ownership.Store Resource

def appendStep (p : Appending) (call : CString × BitVec 32) : Option Appending := do
  let ((code, after), store) ← globOwned system fs call.1 call.2 p.pglob p.store
  if code = 0 then some ⟨after, p.pglob :: p.replaced, p.failures, store⟩
  else some ⟨after, p.replaced, p.failures + 1, store⟩

def AppendDiscipline (_ : Appending) (call : CString × BitVec 32) : Prop :=
  (globUnescape (hasFlag call.2 GLOB_NOESCAPE) call.1).length < bufferSize ∧ hasFlag call.2 GLOB_APPEND = true

/-- Everything that the `glob_t` has ever pointed to is held, and nothing else if all calls were successful. -/
def Hoarded (others : Multiset Resource) (p : Appending) : Prop :=
  ∃ lost, p.store.held = p.pglob.owned + (p.replaced.map OwnedGlob.owned).sum + others + lost ∧
    p.store.held.Nodup ∧ (p.failures = 0 → lost = 0)

theorem appendStep_hoarded (others : Multiset Resource) (p : Appending) (call : CString × BitVec 32)
    (hoarded : Hoarded others p) (allowed : AppendDiscipline p call) :
    ∃ next, appendStep system fs p call = some next ∧ Hoarded others next := by
  obtain ⟨lost, held, distinct, nothing⟩ := hoarded
  obtain ⟨⟨code, after⟩, left, store, ran, rest, distinct, result⟩ :=
    (@globOwned_runs system fs call.1 call.2 p.pglob allowed.1).exec (held.trans (zero_add _).symm) distinct
  have stepped : appendStep system fs p call = if code = 0 then some ⟨after, p.pglob :: p.replaced, p.failures, store⟩
      else some ⟨after, p.replaced, p.failures + 1, store⟩ := by
    rw [appendStep, ran]
    rfl
  have succeeded (whole : left = after.owned) :
      Hoarded others ⟨after, p.pglob :: p.replaced, p.failures, store⟩ := by
    refine ⟨lost, ?_, distinct, nothing⟩
    rw [rest, whole, List.map_cons, List.sum_cons]
    abel
  have failed {lost' : Multiset Resource} (same : left + p.pglob.owned = after.owned + lost') :
      Hoarded others ⟨after, p.replaced, p.failures + 1, store⟩ := by
    refine ⟨lost + lost', ?_, distinct, fun none => absurd none (Nat.succ_ne_zero _)⟩
    rw [rest, ← add_assoc, ← add_assoc, ← add_assoc, same]
    abel
  cases result with
  | found some chosen => exact ⟨_, stepped, succeeded rfl⟩
  | text nocheck chosen text => exact ⟨_, stepped, succeeded rfl⟩
  | unmatched chosen => exact ⟨_, stepped, failed rfl⟩
  | nospace reason few left =>
    rcases left with empty | rfl
    · exact ⟨_, stepped, failed (by rw [OwnedGlob.owned_eq_zero empty, zero_add])⟩
    · exact ⟨_, stepped, failed (add_comm _ _)⟩

/-- When successful calls with `GLOB_APPEND` are followed by `globfree`, all that the `glob_t` had pointed to before
each of these calls is still held: the arrays, and all strings of all earlier results. -/
theorem append_hoards (pglob : OwnedGlob) (others : Multiset Resource) (requests : ℕ)
    (distinct : (pglob.owned + others).Nodup) (calls : List (CString × BitVec 32))
    (permitted : Permitted (appendStep system fs) AppendDiscipline ⟨pglob, [], 0, ⟨pglob.owned + others, requests⟩⟩
      calls) :
    ∃ final, run (appendStep system fs) ⟨pglob, [], 0, ⟨pglob.owned + others, requests⟩⟩ calls = some final ∧
      (final.failures = 0 → ∃ freed store, globfreeOwned final.pglob final.store = some (freed, store) ∧
        store.held = (final.replaced.map OwnedGlob.owned).sum + others) := by
  have initial : Hoarded others ⟨pglob, [], 0, ⟨pglob.owned + others, requests⟩⟩ := by
    refine ⟨0, ?_, distinct, fun _ => rfl⟩
    rw [add_zero]
    exact congrArg (· + others) (add_zero _).symm
  obtain ⟨final, finished, lost, held, apart, nothing⟩ :=
    run_invariant (Hoarded others) (appendStep_hoarded system fs others) initial permitted
  refine ⟨final, finished, ?_⟩
  intro successful
  obtain rfl := nothing successful
  rw [add_zero, add_assoc] at held
  obtain ⟨freed, none, store, cleared, rest, -, rfl, -⟩ := (globfreeOwned_runs final.pglob).exec held apart
  exact ⟨freed, store, cleared, rest.trans (zero_add _)⟩

/-- Two patterns without metacharacters. -/
theorem append_hoards_literals :
    ∃ final, run (appendStep ⟨pool [], pool (List.range 20)⟩ (oneEntry .other))
        ⟨⟨0, none, 0⟩, [], 0, ⟨0 + {.descriptor 0}, 0⟩⟩ [([chr 'a'], GLOB_APPEND), ([chr 'b'], GLOB_APPEND)] =
          some final ∧
      (final.failures = 0 → ∃ freed store, globfreeOwned final.pglob final.store = some (freed, store) ∧
        store.held = (final.replaced.map OwnedGlob.owned).sum + {.descriptor 0}) := by
  apply append_hoards _ _ ⟨0, none, 0⟩ _ _ (by decide)
  refine .cons ⟨by decide, by decide⟩ rfl ?_
  exact .cons ⟨by decide, by decide⟩ rfl trivial

end CLite
