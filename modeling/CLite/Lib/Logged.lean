import Mathlib.Tactic.Common

/-! # Programs with a log

A program over a state that may stop with a fault comes with the log of what it does on the way, from each state. The
log of two programs in sequence is that of the first and, unless this has stopped, that of the second. The log does
not influence the program, so that a logged program is the one without a log with something to observe.
-/

/-- A program and what it logs from a state, up to its end or its fault. -/
structure Logged (σ ε ω α : Type) where
  program : StateT σ (Except ε) α
  log : σ → List ω

namespace Logged

variable {σ ε ω α β γ : Type}

/-- A program that logs nothing. -/
def quiet (program : StateT σ (Except ε) α) : Logged σ ε ω α := ⟨program, fun _ => []⟩

/-- A program behind entries that are logged first. -/
def after (entries : List ω) (program : StateT σ (Except ε) α) : Logged σ ε ω α := ⟨program, fun _ => entries⟩

instance : Monad (Logged σ ε ω) where
  pure value := quiet (pure value)
  bind first next :=
    { program := first.program >>= fun value => (next value).program
      log := fun state => first.log state ++
        match first.program.run state with
        | .ok (value, state) => (next value).log state
        | .error _ => [] }

variable {first : Logged σ ε ω α} {next : α → Logged σ ε ω β}

@[simp] theorem program_quiet (program : StateT σ (Except ε) α) :
    (quiet program : Logged σ ε ω α).program = program := rfl

@[simp] theorem program_after (entries : List ω) (program : StateT σ (Except ε) α) :
    (after entries program).program = program := rfl

@[simp] theorem program_pure (value : α) : (pure value : Logged σ ε ω α).program = pure value := rfl

@[simp] theorem program_bind : (first >>= next).program = first.program >>= fun value => (next value).program := rfl

@[simp] theorem program_foldlM (body : β → γ → Logged σ ε ω β) (items : List γ) (start : β) :
    (items.foldlM body start).program = items.foldlM (fun acc item => (body acc item).program) start := by
  induction items generalizing start with
  | nil => rfl
  | cons item items ih => simp only [List.foldlM_cons, program_bind, ih]

/-- A part without a log that comes to its end leaves the log to the rest. -/
theorem log_quiet_bind {program : StateT σ (Except ε) α} {state state' : σ} {value : α}
    (ran : program.run state = .ok (value, state')) :
    (quiet program >>= next).log state = (next value).log state' := by
  change [] ++ (match program.run state with
    | .ok (value, state) => (next value).log state
    | .error _ => []) = _
  rw [ran, List.nil_append]

/-! ## Faults that the log shows -/

/-- The program stops with the fault exactly where its log has a bad entry. -/
def Shows (bad : ω → Prop) (fault : ε) (logged : Logged σ ε ω α) : Prop :=
  ∀ state, (∃ entry ∈ logged.log state, bad entry) ↔ logged.program.run state = .error fault

variable {bad : ω → Prop} {fault : ε}

theorem Shows.after {entries : List ω} {program : StateT σ (Except ε) α}
    (same : ∀ state, (∃ entry ∈ entries, bad entry) ↔ program.run state = .error fault) :
    Shows bad fault (Logged.after entries program) :=
  same

/-- Good entries show that the program does not stop with the fault. -/
theorem Shows.after_good {entries : List ω} {program : StateT σ (Except ε) α}
    (good : ∀ entry ∈ entries, ¬ bad entry) (never : ∀ state, program.run state ≠ .error fault) :
    Shows bad fault (Logged.after entries program) := by
  apply Shows.after
  intro state
  constructor
  · rintro ⟨entry, member, wrong⟩
    exact (good entry member wrong).elim
  · intro stopped
    exact (never state stopped).elim

theorem Shows.quiet {program : StateT σ (Except ε) α} (never : ∀ state, program.run state ≠ .error fault) :
    Shows bad fault (Logged.quiet program) := by
  apply Shows.after_good _ never
  intro entry member
  cases member

theorem Shows.pure (value : α) : Shows bad fault (Pure.pure value : Logged σ ε ω α) := by
  apply Shows.quiet
  intro state stopped
  cases stopped

theorem Shows.bind (here : Shows bad fault first) (later : ∀ value, Shows bad fault (next value)) :
    Shows bad fault (first >>= next) := by
  intro state
  have early := here state
  rw [program_bind, StateT.run_bind]
  change (∃ entry ∈ first.log state ++ _, bad entry) ↔ _
  simp only [List.mem_append, or_and_right, exists_or]
  cases ran : first.program.run state with
  | error error =>
    rw [ran, Except.error.injEq] at early
    simp only [List.not_mem_nil, false_and, exists_false, or_false]
    change _ ↔ Except.error error = Except.error fault
    rw [Except.error.injEq]
    exact early
  | ok result =>
    rw [ran] at early
    -- the first part has come to its end, so that nothing bad is logged by it
    rw [or_iff_right (fun wrong => by cases early.mp wrong)]
    exact later result.1 result.2

theorem Shows.foldlM {body : β → γ → Logged σ ε ω β} (turn : ∀ acc item, Shows bad fault (body acc item))
    (items : List γ) (start : β) : Shows bad fault (items.foldlM body start) := by
  induction items generalizing start with
  | nil => exact .pure start
  | cons item items ih =>
    rw [List.foldlM_cons]
    exact (turn start item).bind ih

end Logged
