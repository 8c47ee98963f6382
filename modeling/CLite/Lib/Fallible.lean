import Mathlib.Tactic.Common

/-! # Outcomes of programs with state and faults

A program over a state either delivers a value or stops with a fault. `Outcome` gives a condition for
each, from every state, and its rules follow the structure of a program. The fault condition can say
when the program may stop, so one statement serves programs that must succeed and programs that might
not.
-/

namespace Fallible

variable {σ ε α β : Type}

/-- From every state the program delivers a value with the first property or stops with a fault that
has the second. -/
def Outcome (program : StateT σ (Except ε) α) (post : α → Prop) (fault : ε → Prop) : Prop :=
  ∀ state, match program.run state with
    | .ok (value, _) => post value
    | .error error => fault error

variable {program : StateT σ (Except ε) α} {post : α → Prop} {fault : ε → Prop}

theorem Outcome.pure {value : α} (holds : post value) :
    Outcome (Pure.pure value : StateT σ (Except ε) α) post fault := fun _ => holds

theorem Outcome.throw {error : ε} (holds : fault error) :
    Outcome (throw error : StateT σ (Except ε) α) post fault := fun _ => holds

theorem Outcome.bind {next : α → StateT σ (Except ε) β} {middle : α → Prop} {final : β → Prop}
    (first : Outcome program middle fault) (second : ∀ value, middle value → Outcome (next value) final fault) :
    Outcome (program >>= next) final fault := by
  intro state
  have here := first state
  rw [StateT.run_bind]
  cases ran : program.run state with
  | error error =>
    rw [ran] at here
    exact here
  | ok result =>
    rw [ran] at here
    exact second result.1 here result.2

theorem Outcome.mono {post' : α → Prop} {fault' : ε → Prop} (outcome : Outcome program post fault)
    (weaker : ∀ value, post value → post' value) (milder : ∀ error, fault error → fault' error) :
    Outcome program post' fault' := by
  intro state
  have here := outcome state
  cases ran : program.run state with
  | error error =>
    rw [ran] at here
    exact milder error here
  | ok result =>
    rw [ran] at here
    exact weaker result.1 here

/-- A run goes on where its first part has ended. -/
theorem run_bind_of_ok {next : α → StateT σ (Except ε) β} {state state' : σ} {value : α}
    (ran : program.run state = .ok (value, state')) :
    (program >>= next).run state = (next value).run state' := by
  rw [StateT.run_bind, ran]
  rfl

end Fallible
