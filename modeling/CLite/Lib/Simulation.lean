import Mathlib.Tactic.Common

/-! # Machines that reply

A machine answers each call with a reply and a next state. If the steps of two machines lead from related states to
equal replies and related states, then no sequence of calls can tell the machines apart.
-/

namespace Simulation

variable {σ τ α ρ : Type*}

/-- The replies to a sequence of calls. -/
def replies (step : σ → α → ρ × σ) : σ → List α → List ρ
  | _, [] => []
  | state, call :: rest => (step state call).1 :: replies step (step state call).2 rest

/-- One machine follows the other from related states. -/
def Follows (step : σ → α → ρ × σ) (step' : τ → α → ρ × τ) (related : σ → τ → Prop) : Prop :=
  ∀ state state' call, related state state' →
    (step state call).1 = (step' state' call).1 ∧ related (step state call).2 (step' state' call).2

variable {step : σ → α → ρ × σ} {step' : τ → α → ρ × τ} {related : σ → τ → Prop}

theorem Follows.replies_eq (follows : Follows step step' related) {state : σ} {state' : τ}
    (start : related state state') (calls : List α) : replies step state calls = replies step' state' calls := by
  induction calls generalizing state state' with
  | nil => rfl
  | cons call rest ih =>
    obtain ⟨same, next⟩ := follows state state' call start
    rw [replies, replies, same, ih next]

/-! ## Machines that may fail

A machine in which some calls do not return carries out a total one if every call that is allowed in a state of the
total machine returns, with the same reply and into a related state.
-/

/-- The replies to a sequence of calls and the state after them, if all calls return. -/
def runReplies (step : σ → α → Option (ρ × σ)) : σ → List α → Option (List ρ × σ)
  | state, [] => some ([], state)
  | state, call :: rest => do
    let (reply, state) ← step state call
    let (others, state) ← runReplies step state rest
    some (reply :: others, state)

/-- The state of a total machine after a sequence of calls. -/
def after (step : τ → α → ρ × τ) (state : τ) (calls : List α) : τ :=
  calls.foldl (fun state call => (step state call).2) state

/-- Each call is allowed in the state in which it is made. -/
def Allowed (step : τ → α → ρ × τ) (allowed : τ → α → Prop) : τ → List α → Prop
  | _, [] => True
  | state, call :: rest => allowed state call ∧ Allowed step allowed (step state call).2 rest

/-- Every allowed call returns, with the reply of the total machine. -/
def CarriesOut (step : σ → α → Option (ρ × σ)) (step' : τ → α → ρ × τ) (allowed : τ → α → Prop)
    (related : σ → τ → Prop) : Prop :=
  ∀ state state' call, related state state' → allowed state' call →
    ∃ next, step state call = some ((step' state' call).1, next) ∧ related next (step' state' call).2

theorem CarriesOut.run {step : σ → α → Option (ρ × σ)} {allowed : τ → α → Prop}
    (carries : CarriesOut step step' allowed related) {state : σ} {state' : τ} (start : related state state')
    {calls : List α} (permitted : Allowed step' allowed state' calls) :
    ∃ final, runReplies step state calls = some (replies step' state' calls, final) ∧
      related final (after step' state' calls) := by
  induction calls generalizing state state' with
  | nil => exact ⟨state, rfl, start⟩
  | cons call rest ih =>
    obtain ⟨next, returned, kept⟩ := carries state state' call start permitted.1
    obtain ⟨final, finished, holds⟩ := ih kept permitted.2
    refine ⟨final, ?_, holds⟩
    simp only [runReplies, returned, Option.bind_eq_bind, Option.bind_some, finished, replies]

end Simulation
