import Mathlib.Tactic.Common

/-! # Runs of a partial machine under a call discipline

A machine executes one call at a time and may fail to return. A call sequence is permitted when each
call satisfies a discipline in the state in which it is made; the discipline may therefore speak about
what earlier calls returned. The invariant rule yields completion and the invariant together, so a
machine that gets stuck on a permitted call satisfies neither half.
-/

namespace CallRun

variable {σ α : Type*}

/-- Execute the calls in order, stopping if one of them does not return. -/
def run (exec : σ → α → Option σ) (start : σ) (calls : List α) : Option σ :=
  calls.foldlM exec start

/-- Each call satisfies the discipline in the state in which it is made. -/
def Permitted (exec : σ → α → Option σ) (allowed : σ → α → Prop) : σ → List α → Prop
  | _, [] => True
  | state, call :: rest =>
      allowed state call ∧ ∀ next, exec state call = some next → Permitted exec allowed next rest

variable {exec : σ → α → Option σ} {allowed : σ → α → Prop}

theorem run_cons (start : σ) (call : α) (rest : List α) :
    run exec start (call :: rest) = (exec start call).bind fun next => run exec next rest := by
  simp only [run, List.foldlM_cons]
  rfl

/-- One permitted step at a time carries an invariant, and completion, along every permitted run. -/
theorem run_invariant (Inv : σ → Prop)
    (step : ∀ state call, Inv state → allowed state call →
      ∃ next, exec state call = some next ∧ Inv next)
    {start : σ} (initial : Inv start) {calls : List α} (permitted : Permitted exec allowed start calls) :
    ∃ final, run exec start calls = some final ∧ Inv final := by
  induction calls generalizing start with
  | nil => exact ⟨start, rfl, initial⟩
  | cons call rest ih =>
    obtain ⟨next, executed, kept⟩ := step start call initial permitted.1
    obtain ⟨final, finished, holds⟩ := ih kept (permitted.2 next executed)
    exact ⟨final, by rw [run_cons, executed]; exact finished, holds⟩

theorem Permitted.cons {start next : σ} {call : α} {rest : List α} (permitted : allowed start call)
    (executed : exec start call = some next) (later : Permitted exec allowed next rest) :
    Permitted exec allowed start (call :: rest) := by
  refine ⟨permitted, ?_⟩
  intro other executes
  obtain rfl : next = other := Option.some.inj (executed.symm.trans executes)
  exact later

/-- A stronger discipline permits fewer runs. -/
theorem Permitted.mono {other : σ → α → Prop}
    (weaker : ∀ state call, allowed state call → other state call) {start : σ} {calls : List α}
    (permitted : Permitted exec allowed start calls) : Permitted exec other start calls := by
  induction calls generalizing start with
  | nil => trivial
  | cons call rest ih =>
    exact ⟨weaker _ _ permitted.1, fun next executed => ih (permitted.2 next executed)⟩

/-- If a step from good states leads to a good one exactly when it is allowed, then a run is permitted exactly
when every state that it goes through is good. -/
theorem permitted_iff (Inv Good : σ → Prop)
    (step : ∀ state call, Inv state → Good state →
      ∃ next, exec state call = some next ∧ Inv next ∧ (Good next ↔ allowed state call))
    {start : σ} (initial : Inv start) (good : Good start) (calls : List α) :
    Permitted exec allowed start calls ↔
      ∀ done, done <+: calls → ∃ state, run exec start done = some state ∧ Good state := by
  induction calls generalizing start with
  | nil =>
    refine iff_of_true trivial ?_
    intro done isPrefix
    rw [List.prefix_nil.mp isPrefix]
    exact ⟨start, rfl, good⟩
  | cons call rest ih =>
    obtain ⟨next, executed, kept, correct⟩ := step start call initial good
    constructor
    · intro permitted done isPrefix
      cases done with
      | nil => exact ⟨start, rfl, good⟩
      | cons first done =>
        obtain ⟨rfl, shorter⟩ := List.cons_prefix_cons.mp isPrefix
        rw [run_cons, executed]
        exact (ih kept (correct.mpr permitted.1)).mp (permitted.2 next executed) done shorter
    · intro always
      have later : ∀ done, done <+: rest → ∃ state, run exec next done = some state ∧ Good state := by
        intro done shorter
        obtain ⟨state, finished, holds⟩ := always (call :: done) (List.cons_prefix_cons.mpr ⟨rfl, shorter⟩)
        rw [run_cons, executed] at finished
        exact ⟨state, finished, holds⟩
      obtain ⟨_, here, holds⟩ := later [] List.nil_prefix
      obtain rfl : next = _ := Option.some.inj here
      exact .cons (correct.mp holds) executed ((ih kept holds).mpr later)

/-- A property of the calls themselves can be added to the discipline. -/
theorem Permitted.and_forall {P : α → Prop} {start : σ} {calls : List α}
    (permitted : Permitted exec allowed start calls) (all : ∀ call ∈ calls, P call) :
    Permitted exec (fun state call => allowed state call ∧ P call) start calls := by
  induction calls generalizing start with
  | nil => trivial
  | cons call rest ih =>
    exact ⟨⟨permitted.1, all call (List.mem_cons_self ..)⟩, fun next executed =>
      ih (permitted.2 next executed) fun other member => all other (List.mem_cons_of_mem _ member)⟩

end CallRun
