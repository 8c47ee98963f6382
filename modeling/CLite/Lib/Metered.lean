import Mathlib.Tactic.Common

/-! # Programs that ask an oracle for resources

A program asks an oracle for one resource after the other; its state is the number of requests so far. A metered
program stops with a fault at the first request that is refused and otherwise does not depend on the oracle. Its
run with every request granted then tells how many requests it makes, and what it does under any other oracle.
-/

namespace Oracle

variable {ε α β γ : Type} {fault : ε} {grants : ℕ → Bool} {start mid stop : ℕ}

/-- Whether the next request is granted. -/
def request (grants : ℕ → Bool) : StateT ℕ (Except ε) Bool := fun count => .ok (grants count, count + 1)

/-- All the requests from the first number up to the second are granted. -/
def Granted (grants : ℕ → Bool) (start stop : ℕ) : Prop := ∀ k, start ≤ k → k < stop → grants k = true

theorem Granted.refl (grants : ℕ → Bool) (start : ℕ) : Granted grants start start := by
  intro k lower upper
  omega

theorem granted_split (lower : start ≤ mid) (upper : mid ≤ stop) :
    Granted grants start stop ↔ Granted grants start mid ∧ Granted grants mid stop := by
  constructor
  · intro all
    exact ⟨fun k first last => all k first (by omega), fun k first last => all k (by omega) last⟩
  · rintro ⟨before, after⟩ k first last
    rcases Nat.lt_or_ge k mid with early | late
    · exact before k first early
    · exact after k late last

theorem granted_succ : Granted grants start (start + 1) ↔ grants start = true := by
  constructor
  · intro all
    exact all start (Nat.le_refl _) (Nat.lt_succ_self _)
  · intro here k first last
    obtain rfl : k = start := by omega
    exact here

/-- How a run under the oracle follows the run with every request granted, both started after `start` requests:
it is the same, or it stops at a request that is refused. -/
inductive Follows (fault : ε) (grants : ℕ → Bool) (start : ℕ) :
    Except ε (α × ℕ) → Except ε (α × ℕ) → Prop
  | granted {value : α} {stop : ℕ} (longer : start ≤ stop) (all : Granted grants start stop) :
      Follows fault grants start (.ok (value, stop)) (.ok (value, stop))
  | refused {value : α} {stop : ℕ} (longer : start ≤ stop) (refusal : ¬ Granted grants start stop) :
      Follows fault grants start (.ok (value, stop)) (.error fault)
  | fails (error : ε) : Follows fault grants start (.error error) (.error error)
  | stops (error : ε) : Follows fault grants start (.error error) (.error fault)

variable {free actual : Except ε (α × ℕ)}

theorem Follows.after (lower : start ≤ mid) (all : Granted grants start mid)
    (follows : Follows fault grants mid free actual) : Follows fault grants start free actual := by
  cases follows with
  | granted longer more =>
    exact .granted (Nat.le_trans lower longer) ((granted_split lower longer).mpr ⟨all, more⟩)
  | refused longer refusal =>
    exact .refused (Nat.le_trans lower longer) fun whole => refusal ((granted_split lower longer).mp whole).2
  | fails error => exact .fails error
  | stops error => exact .stops error

/-- After a refusal it does not matter how the run would have gone on. -/
theorem Follows.refuse (lower : start ≤ mid) (refusal : ¬ Granted grants start mid)
    (follows : Follows fault grants mid free actual) : Follows fault grants start free (.error fault) := by
  have stopped : ∀ {stop}, mid ≤ stop → ¬ Granted grants start stop := by
    intro stop longer whole
    exact refusal ((granted_split lower longer).mp whole).1
  cases follows with
  | granted longer more => exact .refused (Nat.le_trans lower longer) (stopped longer)
  | refused longer more => exact .refused (Nat.le_trans lower longer) (stopped longer)
  | fails error => exact .stops error
  | stops error => exact .stops error

/-- Every run of the program follows the one with all requests granted. -/
def Metered (fault : ε) (program : (ℕ → Bool) → StateT ℕ (Except ε) α) : Prop :=
  ∀ grants start, Follows fault grants start ((program fun _ => true).run start) ((program grants).run start)

variable {program : (ℕ → Bool) → StateT ℕ (Except ε) α}

theorem Metered.pure (value : α) : Metered fault fun _ => (Pure.pure value : StateT ℕ (Except ε) α) :=
  fun grants start => .granted (Nat.le_refl _) (.refl grants start)

theorem Metered.throw (error : ε) : Metered fault fun _ => (MonadExcept.throw error : StateT ℕ (Except ε) α) :=
  fun _ _ => .fails error

theorem Metered.bind {next : (ℕ → Bool) → α → StateT ℕ (Except ε) β} (first : Metered fault program)
    (second : ∀ value, Metered fault fun grants => next grants value) :
    Metered fault fun grants => program grants >>= next grants := by
  intro grants start
  have here := first grants start
  simp only [StateT.run_bind]
  generalize (program fun _ => true).run start = free at here ⊢
  generalize (program grants).run start = actual at here ⊢
  cases here with
  | granted longer all => exact (second _ grants _).after longer all
  | refused longer refusal => exact (second _ grants _).refuse longer refusal
  | fails error => exact .fails error
  | stops error => exact .stops error

/-- A program that asks first, and stops if the request is refused. -/
theorem Metered.ask (metered : Metered fault program) :
    Metered fault fun grants => request grants >>= fun granted =>
      if granted then program grants else MonadExcept.throw fault := by
  intro grants start
  change Follows fault grants start ((program fun _ => true).run (start + 1))
    (StateT.run (if grants start then program grants else MonadExcept.throw fault) (start + 1))
  have rest := metered grants (start + 1)
  split
  next granted => exact rest.after (Nat.le_succ _) (granted_succ.mpr granted)
  next refusal => exact rest.refuse (Nat.le_succ _) (mt granted_succ.mp refusal)

theorem Metered.foldlM {body : (ℕ → Bool) → β → γ → StateT ℕ (Except ε) β}
    (metered : ∀ acc item, Metered fault fun grants => body grants acc item) (items : List γ) (acc : β) :
    Metered fault fun grants => items.foldlM (body grants) acc := by
  induction items generalizing acc with
  | nil => exact .pure acc
  | cons item items ih =>
    simp only [List.foldlM_cons]
    exact (metered acc item).bind ih

end Oracle
