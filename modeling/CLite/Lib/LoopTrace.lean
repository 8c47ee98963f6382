import Mathlib.Data.Finset.Card
import Mathlib.Logic.Relation
import Mathlib.Tactic.Common

/-! # Traces of loops

A loop makes one step after another until its step function has none to make. Its trace lists the states that it
goes through. A loop whose steps decrease a measure has a trace, so that it stops; it has only one; and what each
step keeps holds all along it. In a finite set of states a loop has a trace exactly if no state leads back to itself.
-/

namespace LoopTrace

variable {σ : Type*}

/-- The states of a loop from `s` to the one in which it stops. -/
inductive Trace (step : σ → Option σ) : σ → List σ → Prop where
  | stop {s : σ} (stopped : step s = none) : Trace step s [s]
  | next {s t : σ} {trace : List σ} (made : step s = some t) (later : Trace step t trace) : Trace step s (s :: trace)

variable {step : σ → Option σ} {s t : σ} {trace : List σ}

theorem exists_trace (measure : σ → ℕ) (decreases : ∀ s t, step s = some t → measure t < measure s) (s : σ) :
    ∃ trace, Trace step s trace := by
  induction bound : measure s using Nat.strongRecOn generalizing s with
  | ind bound ih =>
    cases made : step s with
    | none => exact ⟨[s], .stop made⟩
    | some t =>
      obtain ⟨trace, later⟩ := ih (measure t) (bound ▸ decreases s t made) t rfl
      exact ⟨s :: trace, .next made later⟩

theorem Trace.unique {other : List σ} (one : Trace step s trace) (same : Trace step s other) : trace = other := by
  induction one generalizing other with
  | stop stopped =>
    cases same with
    | stop => rfl
    | next made => rw [stopped] at made; cases made
  | next made later ih =>
    cases same with
    | stop stopped => rw [stopped] at made; cases made
    | next made' later' =>
      obtain rfl := Option.some.inj (made.symm.trans made')
      rw [ih later']

theorem Trace.stopped (one : Trace step s trace) (stopped : step s = none) : trace = [s] :=
  one.unique (.stop stopped)

theorem Trace.head_mem (one : Trace step s trace) : s ∈ trace := by
  cases one <;> exact List.mem_cons_self ..

/-- The state behind a state of the trace is in the trace. -/
theorem Trace.next_mem (one : Trace step s trace) (member : t ∈ trace) {u : σ} (made : step t = some u) :
    u ∈ trace := by
  induction one with
  | stop stopped =>
    obtain rfl := List.mem_singleton.mp member
    rw [stopped] at made
    cases made
  | next made' later ih =>
    rcases List.mem_cons.mp member with rfl | member
    · obtain rfl := Option.some.inj (made.symm.trans made')
      exact List.mem_cons_of_mem _ later.head_mem
    · exact List.mem_cons_of_mem _ (ih member)

/-- What each step keeps, as long as the states are good, holds in all states of the trace. -/
theorem Trace.invariant {Good Inv : σ → Prop} (kept : ∀ s t, Inv s → Good s → step s = some t → Inv t)
    (one : Trace step s trace) (initial : Inv s) (good : ∀ t ∈ trace, Good t) : ∀ t ∈ trace, Inv t := by
  induction one with
  | stop stopped =>
    intro t member
    obtain rfl := List.mem_singleton.mp member
    exact initial
  | next made later ih =>
    obtain ⟨here, later'⟩ := List.forall_mem_cons.mp good
    exact List.forall_mem_cons.mpr ⟨initial, ih (kept _ _ initial here made) later'⟩

/-- A relation between each state and the next holds between each state and all later ones. -/
theorem Trace.pairwise {R : σ → σ → Prop} (related : ∀ s t, step s = some t → R s t)
    (trans : ∀ s t u, R s t → R t u → R s u) (one : Trace step s trace) : trace.Pairwise R := by
  induction one with
  | stop => exact List.pairwise_singleton ..
  | @next s t trace made later ih =>
    refine List.pairwise_cons.mpr ⟨?_, ih⟩
    intro u member
    have all : ∀ u ∈ trace, u = t ∨ R t u := by
      cases later with
      | stop =>
        intro u member
        exact .inl (List.mem_singleton.mp member)
      | next =>
        intro u member
        exact (List.mem_cons.mp member).imp id fun member => (List.pairwise_cons.mp ih).1 u member
    rcases all u member with rfl | reached
    · exact related s _ made
    · exact trans s t u (related s t made) reached

/-! ## Loops that never come back -/

/-- One state is the next one after the other. -/
def Next (step : σ → Option σ) (s t : σ) : Prop := step s = some t

/-- All states before the last one make a step. -/
theorem Trace.exists_next (one : Trace step s trace) : ∀ t ∈ trace.dropLast, ∃ u, step t = some u := by
  induction one with
  | stop => exact nofun
  | @next s t trace made later ih =>
    obtain ⟨first, rest, rfl⟩ : ∃ first rest, trace = first :: rest := by cases later <;> exact ⟨_, _, rfl⟩
    rw [List.dropLast_cons_cons, List.forall_mem_cons]
    exact ⟨⟨t, made⟩, ih⟩

/-- The trace from a state that is reached is the end of the trace. -/
theorem Trace.reached (one : Trace step s trace) (reached : Relation.ReflTransGen (Next step) s t) :
    ∃ rest, Trace step t rest ∧ rest <:+ trace := by
  induction reached with
  | refl => exact ⟨trace, one, List.suffix_rfl⟩
  | tail _ made ih =>
    obtain ⟨rest, later, ending⟩ := ih
    cases later with
    | stop stopped => exact absurd (made.symm.trans stopped) (by simp)
    | next made' later' =>
      obtain rfl := Option.some.inj (made.symm.trans made')
      exact ⟨_, later', (List.suffix_cons ..).trans ending⟩

/-- All states of the trace are reached. -/
theorem Trace.reached_of_mem (one : Trace step s trace) :
    ∀ t ∈ trace, Relation.ReflTransGen (Next step) s t := by
  have kept (t u : σ) (reached : Relation.ReflTransGen (Next step) s t) (_ : True) (made : step t = some u) :
      Relation.ReflTransGen (Next step) s u := reached.tail made
  exact one.invariant kept .refl fun _ _ => trivial

theorem Trace.mem_of_reached (one : Trace step s trace) (reached : Relation.ReflTransGen (Next step) s t) :
    t ∈ trace := by
  obtain ⟨rest, later, ending⟩ := one.reached reached
  exact ending.subset later.head_mem

/-- A state with a trace does not lead back to itself. -/
theorem Trace.not_back (one : Trace step s trace) : ¬ Relation.TransGen (Next step) s s := by
  intro back
  obtain ⟨t, made, onward⟩ := Relation.TransGen.head'_iff.mp back
  cases one with
  | stop stopped => exact absurd (made.symm.trans stopped) (by simp)
  | @next _ u rest made' later =>
    obtain rfl : t = u := Option.some.inj (made.symm.trans made')
    obtain ⟨rest', again, ending⟩ := later.reached onward
    have same := again.unique (.next made' later)
    have length := ending.length_le
    rw [same, List.length_cons] at length
    omega

/-- No state is listed twice. -/
theorem Trace.nodup (one : Trace step s trace) : trace.Nodup := by
  induction one with
  | stop => exact List.nodup_singleton _
  | @next s t trace made later ih =>
    refine List.nodup_cons.mpr ⟨?_, ih⟩
    intro member
    have back : Relation.TransGen (Next step) s s := .head' made (later.reached_of_mem s member)
    exact (Trace.next made later).not_back back

/-- A loop in a finite set of states has a trace if no state that it reaches leads back to itself. -/
theorem exists_trace_of_not_back {states : Finset σ}
    (closed : ∀ s t, step s = some t → t ∈ states)
    (forward : ∀ t, Relation.ReflTransGen (Next step) s t → ¬ Relation.TransGen (Next step) t t) :
    ∃ trace, Trace step s trace := by
  classical
  -- Each step leaves fewer states ahead: the next state is no longer one of them.
  induction size : (states.filter (Relation.TransGen (Next step) s)).card using Nat.strongRecOn generalizing s with
  | ind size ih =>
    cases made : step s with
    | none => exact ⟨[s], .stop made⟩
    | some t =>
      have first : Relation.TransGen (Next step) s t := .single made
      have fewer :
          states.filter (Relation.TransGen (Next step) t) ⊂ states.filter (Relation.TransGen (Next step) s) := by
        rw [Finset.ssubset_iff_of_subset]
        · refine ⟨t, Finset.mem_filter.mpr ⟨closed s t made, first⟩, ?_⟩
          intro back
          exact forward t first.to_reflTransGen (Finset.mem_filter.mp back).2
        · intro u member
          obtain ⟨listed, onward⟩ := Finset.mem_filter.mp member
          exact Finset.mem_filter.mpr ⟨listed, first.trans onward⟩
      obtain ⟨trace, later⟩ := ih _ (size ▸ Finset.card_lt_card fewer)
        (fun u onward => forward u (first.to_reflTransGen.trans onward)) rfl
      exact ⟨s :: trace, .next made later⟩

end LoopTrace
